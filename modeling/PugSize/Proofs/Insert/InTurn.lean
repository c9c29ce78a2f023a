import PugSize.Proofs.Edit.Parted
import PugSize.Proofs.Insert.Reread

/-!
Collections item by item. The items of a collection part its text, their images are asked for in turn from
the last item to the first, and the new text is the new items in the gaps between the old ones.
-/

namespace PugSize

open Script ObjectText

/-- Questions asked in turn, each in the state that the one before it left, up to the first that fails. -/
def inTurn {σ ε α β : Type} (ask : α → StateM σ (Except ε β)) : List α → StateM σ (Except ε (List β))
  | [] => return .ok []
  | a :: as => do
    match ← ask a with
    | .error e => return .error e
    | .ok b => return (← inTurn ask as).map (b :: ·)

section

variable {σ ε α β : Type} {ask : α → StateM σ (Except ε β)}

theorem inTurn_cons (a : α) (as : List α) (s : σ) :
    (inTurn ask (a :: as)).run s =
      match (ask a).run s with
      | (.error e, s') => (.error e, s')
      | (.ok b, s') => (((inTurn ask as).run s').1.map (b :: ·), ((inTurn ask as).run s').2) := by
  have hrun : (inTurn ask (a :: as)).run s =
      (match ((ask a).run s).1 with
        | .error e => (return .error e : StateM σ (Except ε (List β)))
        | .ok b => return (← inTurn ask as).map (b :: ·)).run ((ask a).run s).2 := rfl
  rw [hrun]
  rcases (ask a).run s with ⟨_ | b, s'⟩ <;> rfl

/-- There are as many answers as questions. -/
theorem length_inTurn {as : List α} {s s' : σ} {bs : List β} (h : (inTurn ask as).run s = (.ok bs, s')) :
    bs.length = as.length := by
  induction as generalizing s s' bs with
  | nil =>
      cases h
      rfl
  | cons a as ih =>
      rw [inTurn_cons] at h
      split at h
      · cases h
      · rename_i b s₁ hfirst
        obtain ⟨hlater, -⟩ := Prod.mk.inj h
        obtain ⟨bs', hbs', rfl⟩ := exists_of_map_ok hlater
        have hrest : (inTurn ask as).run s₁ = (.ok bs', ((inTurn ask as).run s₁).2) := Prod.ext hbs' rfl
        rw [List.length_cons, List.length_cons, ih hrest]

end

section

variable {slots : List ImageSlot}

theorem CollectionItem.span_eq {e : Expr} {item : CollectionItem} (h : ofExpr? slots e = some item) :
    e.span = item.span := by
  obtain ⟨props, rfl, -⟩ := exists_props h
  rfl

/-- The images of an item are found in the order of the slots, at most one for each. -/
theorem CollectionItem.slots_sublist {e : Expr} {item : CollectionItem} (h : ofExpr? slots e = some item) :
    (item.images.map ItemImage.slot).Sublist slots := by
  unfold ofExpr? at h
  split at h
  · rename_i props span
    dsimp only at h
    split at h
    · cases h
    · cases h
      dsimp only
      clear * -
      induction slots with
      | nil => exact .slnil
      | cons slot slots ih =>
          cases hfound : ItemImage.find? props slot with
          | none =>
              rw [List.filterMap_cons_none hfound]
              exact ih.cons slot
          | some m =>
              obtain ⟨key, -, hm⟩ := List.exists_of_findSome?_eq_some hfound
              obtain ⟨image, -, rfl⟩ := Option.map_eq_some_iff.1 hm
              rw [List.filterMap_cons_some hfound]
              exact ih.cons_cons slot
  · cases h

theorem spans_sublist (elements : List Expr) :
    ((elements.filterMap (CollectionItem.ofExpr? slots)).map CollectionItem.span).Sublist
      (elements.map Expr.span) := by
  induction elements with
  | nil => exact .slnil
  | cons e elements ih =>
      cases hitem : CollectionItem.ofExpr? slots e with
      | none =>
          rw [List.filterMap_cons_none hitem]
          exact ih.cons _
      | some item =>
          rw [List.filterMap_cons_some hitem, List.map_cons, List.map_cons, CollectionItem.span_eq hitem]
          exact ih.cons_cons _

/-- The elements of an array part the text of its segments. -/
theorem parted_elements {segs : List (List Node)} (huncut : ∀ seg ∈ segs, Uncut seg) {opening : Char}
    (hopening : opening.utf8Size = 1) {offset : Nat} {after : Text}
    (hlegible : Legible (lexemesOf (commaNodes segs)) after) {elements : List Expr}
    (hread : elements? (placeAll (offset + 1) segs) = some elements) (behind : Text) :
    Text.Parted offset (segText opening segs ++ behind) (elements.map Expr.span) := by
  induction segs generalizing opening offset elements with
  | nil =>
      cases hread
      exact .nil _ _
  | cons seg segs ih =>
      obtain ⟨hseg, hsegs⟩ := List.forall_mem_cons.1 huncut
      have hcommas : commaNodes (seg :: segs) = [.comma] ++ seg ++ commaNodes segs := by simp [commaNodes]
      rw [hcommas, lexemesOf_append, lexemesOf_append] at hlegible
      obtain ⟨hfirst, hlater⟩ := legible_append.1 hlegible
      have hstart (ns : List Node) : offset + Text.width (opening :: textOf ns) = offset + 1 + widthOf ns := by
        rw [Text.width_cons, hopening, widthOf, Nat.add_assoc]
      obtain hblank | ⟨r, rfl⟩ := exists_row hseg
      · rw [placeAll, placeRow_blank hblank, elements?] at hread
        rw [segText, List.append_assoc]
        refine .behind ?_
        rw [hstart]
        exact ih hsegs rfl hlater hread
      · obtain ⟨tree, rest, htrees, hspan⟩ := r.trees_eq (offset + 1)
        rw [placeAll, r.placeRow_nodes, htrees, elements?] at hread
        obtain ⟨e, he, hrest⟩ := Option.bind_eq_some_iff.1 hread
        obtain ⟨es, hes, rfl⟩ := Option.map_eq_some_iff.1 hrest
        have hcore : textOf r.core ≠ [] := by
          have hrow := (legible_append.1 hfirst).2
          rw [Row.nodes, lexemesOf_append, lexemesOf_append] at hrow
          refine textOf_ne_nil (legible_append.1 (legible_append.1 hrow).1).2 ?_
          obtain ⟨n, hn, -⟩ := r.solid.first
          rintro hnil
          rw [hnil] at hn
          cases hn
        have htext : segText opening (r.nodes :: segs) ++ behind =
            (opening :: textOf r.lead) ++ textOf r.core ++
              (textOf r.trail ++ (segText ',' segs ++ behind)) := by
          rw [segText, Row.nodes, textOf_append, textOf_append]
          simp only [List.cons_append, List.append_assoc]
        have hwidth : offset + 1 + widthOf r.nodes =
            offset + 1 + widthOf r.lead + (textOf r.core).width + (textOf r.trail).width := by
          rw [Row.nodes, widthOf_append, widthOf_append]
          simp only [widthOf, Nat.add_assoc]
        rw [htext, List.map_cons, segmentExpr?_span he, hspan, Row.span, ← hstart]
        refine .cons _ _ hcore (.behind ?_)
        rw [hstart, ← hwidth]
        exact ih hsegs rfl hlater hes

/-- The items of a collection part its text. -/
theorem CollectionArguments.parted {t : Text} {found : CollectionArguments} (h : read t slots = .ok found) :
    Text.Parted 0 t (found.items.map CollectionItem.span) := by
  obtain ⟨elements, span, args, hargs, -, rfl⟩ | ⟨props, span, args, item, hargs, hitem, rfl⟩ := read_eq_ok.1 h
  · obtain ⟨lead, shape, inside, back, ht, hinside, hexpr, -⟩ := exists_first hargs rfl
    obtain ⟨rfl, helements⟩ := expr?_array hexpr
    obtain ⟨segs, hne, huncut, rfl⟩ := exists_commas inside
    rw [place_commas hne huncut] at helements
    have hcommas : Legible (lexemesOf (commaNodes segs)) [']'] := by
      rw [commaNodes_eq hne]
      exact ⟨stands_comma _, hinside⟩
    rw [ht, textOf_brackets hne, List.append_assoc, List.append_assoc]
    refine .behind ?_
    rw [Nat.zero_add]
    exact (parted_elements huncut rfl hcommas helements _).sublist (spans_sublist elements)
  · obtain ⟨lead, shape, inside, back, ht, -, hexpr, -⟩ := exists_first hargs rfl
    obtain ⟨rfl, hspan, -⟩ := expr?_object hexpr
    rw [List.map_singleton, ← CollectionItem.span_eq hitem, Expr.span, hspan, ht, textOf_braces]
    have hwidth : (braced inside).width = widthOf inside + 2 := by
      rw [← textOf_braces, ← widthOf, widthOf_group]
    have hparted := @Text.Parted.cons 0 lead (braced inside) back [] (List.cons_ne_nil _ _) (.nil _ _)
    rwa [Nat.zero_add, hwidth] at hparted

theorem CollectionArguments.slots_sublist {t : Text} {found : CollectionArguments}
    (h : read t slots = .ok found) :
    ∀ item ∈ found.items, (item.images.map ItemImage.slot).Sublist slots := by
  obtain ⟨elements, span, args, -, -, rfl⟩ | ⟨props, span, args, item, -, hitem, rfl⟩ := read_eq_ok.1 h
  · intro item hitem
    obtain ⟨e, -, he⟩ := List.mem_filterMap.1 hitem
    exact CollectionItem.slots_sublist he
  · intro item' hitem'
    rw [List.mem_singleton.1 hitem']
    exact CollectionItem.slots_sublist hitem

end

namespace Insert

variable {σ : Type}

/-- Whether a plan does nothing but ask, and makes its result of the answers. -/
def Plan.Asks {α β : Type} (x : Plan σ β) (ask : StateM σ (Except ImageError α)) (result : α → β) : Prop :=
  ∀ s, x.run s = (((ask.run s).1.map result).mapError .resolution, (ask.run s).2)

namespace Plan.Asks

variable {α β γ : Type}

theorem lookUp (resolve : Resolver σ) (image : Text) :
    Plan.Asks (lookUp resolve image) (resolve image) id := by
  intro s
  have hrun : (Insert.lookUp resolve image).run s =
      (((resolve image).run s).1.mapError .resolution, ((resolve image).run s).2) := rfl
  rw [hrun]
  cases ((resolve image).run s).1 <;> rfl

theorem map {x : Plan σ β} {ask : StateM σ (Except ImageError α)} {result : α → β} (h : x.Asks ask result)
    (f : β → γ) : Plan.Asks (do return f (← x)) ask (f ∘ result) := by
  intro s
  rw [Plan.run_bind, h s]
  cases (ask.run s).1 <;> rfl

theorem mapM {δ : Type} {f : δ → Plan σ β} {ask : δ → StateM σ (Except ImageError α)} {result : δ → α → β}
    (h : ∀ d, (f d).Asks (ask d) (result d)) (ds : List δ) :
    Plan.Asks (ds.mapM f) (inTurn ask ds) (List.zipWith result ds) := by
  induction ds with
  | nil =>
      intro s
      rw [List.mapM_nil]
      rfl
  | cons d ds ih =>
      intro s
      rw [List.mapM_cons, Plan.run_bind, h d s, inTurn_cons]
      rcases (ask d).run s with ⟨_ | a, s'⟩
      · rfl
      · have hlater := Plan.Asks.map ih (result d a :: ·) s'
        refine hlater.trans ?_
        dsimp only
        cases ((inTurn ask ds).run s').1 <;> rfl

end Plan.Asks

/-- The width and the height of an image as they are shown, as decimals under the keys of its slot. -/
def imageEdits (request : SizeRequest) (m : ItemImage) (size : Size) : List PropertyEdit :=
  [⟨m.slot.widthKey, decimal (size.scale request.display).width⟩,
    ⟨m.slot.heightKey, decimal (size.scale request.display).height⟩]

/-- The text of an item with the sizes of its images written into it, one image after the other. -/
def resizedItem (t : Text) (request : SizeRequest) (item : CollectionItem) (sizes : List Size) : Text :=
  ObjectText.writeAll request.overwrite (t.slice item.span)
    (List.zipWith (imageEdits request) item.images sizes).flatten

section

variable {resolve : Resolver σ} {request : SizeRequest}

theorem itemEdits_asks (item : CollectionItem) :
    Plan.Asks (itemEdits resolve request item) (inTurn (fun m => resolve m.image) item.images)
      fun sizes => (List.zipWith (imageEdits request) item.images sizes).flatten := by
  have himage (m : ItemImage) : Plan.Asks (do
      return sizeEdits m.slot.widthKey m.slot.heightKey (← scaledSize resolve request m.image))
      (resolve m.image) (imageEdits request m) :=
    ((Plan.Asks.lookUp resolve m.image).map fun size => size.scale request.display).map _
  exact (Plan.Asks.mapM himage item.images).map List.flatten

/-- The replacements of items with new texts. -/
theorem zipWith_objectReplacement (t : Text) (items : List CollectionItem) (sizes : List (List Size)) :
    List.zipWith (fun item sizes => objectReplacement t request item.span
      (List.zipWith (imageEdits request) item.images sizes).flatten) items sizes =
      List.zipWith Replacement.mk (items.map CollectionItem.span)
        (List.zipWith (resizedItem t request) items sizes) := by
  induction items generalizing sizes with
  | nil => rfl
  | cons item items ih =>
      cases sizes with
      | nil => rfl
      | cons first sizes =>
          rw [List.zipWith_cons_cons, ih]
          rfl

end

/-- The items of a collection are apart and ascend, so its text is the items in the gaps between them, and
the images of an item are found in the order of the slots. Whatever is looked up, the images are asked for
in turn, those of the last item first; the first that has no size ends the insert, and where all have one
the new text is the new items in the same gaps. -/
theorem intoCollection_weaves {t : Text} {slots : List ImageSlot} {found : CollectionArguments}
    (hread : CollectionArguments.read t slots = .ok found) :
    (found.items.map CollectionItem.span).Pairwise (fun a b => a.start < a.stop ∧ a.stop ≤ b.start) ∧
    (∀ item ∈ found.items, (item.images.map ItemImage.slot).Sublist slots) ∧
    ∃ gaps, gaps.length = found.items.length + 1 ∧
      t = Text.weave gaps (found.items.map fun item => t.slice item.span) ∧
      found.items.map CollectionItem.span =
        Text.weaveSpans 0 gaps (found.items.map fun item => t.slice item.span) ∧
      ∀ {σ : Type} (resolve : Resolver σ) (request : SizeRequest) (s : σ),
        (intoCollection resolve request slots t).run s =
          let asked := (inTurn (fun item : CollectionItem =>
            inTurn (fun m : ItemImage => resolve m.image) item.images) found.items.reverse).run s
          ((asked.1.map fun sizes =>
            Text.weave gaps (List.zipWith (resizedItem t request) found.items sizes.reverse)).mapError
              .resolution, asked.2) := by
  have hparted := CollectionArguments.parted hread
  have hapart := hparted.pairwise
  obtain ⟨gaps, texts, hlength, ht, hspans, hne⟩ := hparted.exists_gaps
  have hcount : texts.length = found.items.length := by
    have := congrArg List.length hspans
    rw [List.length_map, Text.length_weaveSpans 0 (by omega)] at this
    exact this.symm
  have htexts : (found.items.map fun item => t.slice item.span) = texts := by
    have hslices := Text.slice_weaveSpans [] gaps texts (by omega)
    rw [Text.width_nil, List.nil_append, ← ht, ← hspans, List.map_map] at hslices
    exact hslices
  rw [htexts]
  refine ⟨hapart, CollectionArguments.slots_sublist hread, gaps, by omega, ht, hspans, ?_⟩
  intro σ resolve request s
  have hsorted : found.items.mergeSort (fun a b => b.span.start ≤ a.span.start) = found.items.reverse := by
    refine mergeSort_descending (.refl _) ((List.pairwise_map.1 hapart).imp fun h => ?_)
    exact Nat.lt_of_lt_of_le h.1 h.2
  have hrun : (intoCollection resolve request slots t).run s =
      (do return Replacement.applyAll t (← (found.items.mergeSort fun a b =>
        b.span.start ≤ a.span.start).mapM fun item =>
          return objectReplacement t request item.span (← itemEdits resolve request item)) :
        Plan σ Text).run s := by
    rw [intoCollection, Plan.run_bind, parsed_run, hread]
    rfl
  have hitem (item : CollectionItem) := (@itemEdits_asks σ resolve request item).map
    (objectReplacement t request item.span)
  have hasks := (Plan.Asks.mapM hitem found.items.reverse).map (Replacement.applyAll t)
  rw [hrun, hsorted, hasks s]
  dsimp only
  rcases hasked : (inTurn (fun item : CollectionItem =>
    inTurn (fun m : ItemImage => resolve m.image) item.images) found.items.reverse).run s with ⟨e | sizes, s'⟩
  · rfl
  · have hsizes := length_inTurn hasked
    rw [List.length_reverse] at hsizes
    let news := List.zipWith (resizedItem t request) found.items sizes.reverse
    have hnews : news.length = texts.length := by
      rw [List.length_zipWith, List.length_reverse, hsizes, hcount, Nat.min_self]
    have hreversed : List.zipWith (fun item sizes => objectReplacement t request item.span
        (List.zipWith (imageEdits request) item.images sizes).flatten) found.items.reverse sizes =
        (List.zipWith Replacement.mk (Text.weaveSpans 0 gaps texts) news).reverse := by
      rw [← hspans, ← zipWith_objectReplacement, List.reverse_zipWith (by simpa using hsizes.symm),
        List.reverse_reverse]
    have hnew := Replacement.applyAll_weave hlength hnews hne (List.reverse_perm _)
    rw [← hreversed, ← ht] at hnew
    exact congrArg (fun new => (Except.ok new, s')) hnew

theorem intoCollection_weaves_noted :
    let t : Text := "[\x7b img: 'a.png' \x7d, x, \x7b img: 'bb.png', width: 1 \x7d]".toList
    let slot : ImageSlot := ⟨["img".toList], "width".toList, "height".toList⟩
    let found : CollectionArguments :=
      ⟨.array, [⟨⟨1, 17⟩, [⟨"a.png".toList, "img".toList, slot, false, false⟩]⟩,
        ⟨⟨22, 49⟩, [⟨"bb.png".toList, "img".toList, slot, true, false⟩]⟩]⟩
    let request : SizeRequest := ⟨⟨0, 0⟩, .half, true, []⟩
    let noting : Resolver (List Text) := fun image => do
      modify (· ++ [image])
      return .ok ⟨image.length, 7⟩
    CollectionArguments.read t [slot] = .ok found ∧
    ∃ gaps, gaps.length = found.items.length + 1 ∧
      t = Text.weave gaps (found.items.map fun item => t.slice item.span) ∧
      (intoCollection noting request [slot] t).run [] =
        (.ok (Text.weave gaps (List.zipWith (resizedItem t request) found.items [[⟨5, 7⟩], [⟨6, 7⟩]])),
          ["bb.png".toList, "a.png".toList]) ∧
      Text.weave gaps (List.zipWith (resizedItem t request) found.items [[⟨5, 7⟩], [⟨6, 7⟩]]) =
        "[\x7b img: 'a.png', width: 3, height: 4 \x7d, x, \x7b img: 'bb.png', width: 3, height: 4 \x7d]".toList := by
  intro t slot found request noting
  have hread : CollectionArguments.read t [slot] = .ok found := by
    unfold t found slot
    cbv
  obtain ⟨-, -, gaps, hlength, ht, -, hrun⟩ := intoCollection_weaves hread
  have hasked : (inTurn (fun item : CollectionItem => inTurn (fun m : ItemImage => noting m.image) item.images)
      found.items.reverse).run [] = (.ok [[⟨6, 7⟩], [⟨5, 7⟩]], ["bb.png".toList, "a.png".toList]) := rfl
  have hweave : (intoCollection noting request [slot] t).run [] =
      (.ok (Text.weave gaps (List.zipWith (resizedItem t request) found.items [[⟨5, 7⟩], [⟨6, 7⟩]])),
        ["bb.png".toList, "a.png".toList]) := by
    rw [hrun noting request [], hasked]
    rfl
  have htext : (intoCollection noting request [slot] t).run [] =
      (.ok "[\x7b img: 'a.png', width: 3, height: 4 \x7d, x, \x7b img: 'bb.png', width: 3, height: 4 \x7d]".toList,
        ["bb.png".toList, "a.png".toList]) := by
    unfold t slot request noting
    cbv
  rw [hweave, Prod.mk.injEq, Except.ok.injEq] at htext
  exact ⟨hread, gaps, hlength, ht, hweave, htext.1⟩

end Insert

end PugSize
