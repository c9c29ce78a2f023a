import PugSize.Proofs.Edit.KeptStrings
import PugSize.Proofs.Edit.Pieces
import PugSize.Proofs.Insert.Characters

/-!
The items of an array while sizes are written into their objects. Each object is a segment of its own, so
the objects are exchanged one by one, and the array is read again with the same images in the same items.
-/

namespace PugSize

open Script ObjectText

/-- The keys that images are looked for under. -/
def Shape.imageKeys : Shape → List Text
  | .positional => []
  | .options keys => [keys.pc, keys.sp]
  | .collection slots => slots.flatMap ImageSlot.imageKeys

/-- Whether sizes stand under identifiers that are no keys of images. -/
structure Shape.KeysApart (shape : Shape) : Prop where
  isKey : ∀ key ∈ shape.sizeKeys, IsKey key
  apart : ∀ key ∈ shape.imageKeys, key ∉ shape.sizeKeys

/-- Where an image comes from: its path, the key that held it and the slot that it was found for. -/
def ItemImage.origin (m : ItemImage) : Text × Text × ImageSlot := (m.image, m.imageKey, m.slot)

namespace CollectionItem

def origins (item : CollectionItem) : List (Text × Text × ImageSlot) := item.images.map ItemImage.origin

/-- The keys that the sizes of an item are written under. -/
def sizeKeys (item : CollectionItem) : List Text :=
  item.images.flatMap fun m => [m.slot.widthKey, m.slot.heightKey]

/-- The images of an expression that is an item. -/
def originsOf? (slots : List ImageSlot) (e : Expr) : Option (List (Text × Text × ImageSlot)) :=
  (ofExpr? slots e).map origins

end CollectionItem

theorem ItemImage.find?_origin (props : List (Property Expr)) (slot : ImageSlot) :
    (ItemImage.find? props slot).map origin =
      slot.imageKeys.findSome? fun key => (stringProperty? props key).map fun image => (image, key, slot) := by
  rw [ItemImage.find?]
  induction slot.imageKeys with
  | nil => rfl
  | cons key keys ih =>
      rw [List.findSome?_cons, List.findSome?_cons]
      cases stringProperty? props key with
      | none => exact ih
      | some image => rfl

/-- The images of an object are told from its strings. -/
theorem CollectionItem.originsOf?_object {slots : List ImageSlot} {props props' : List (Property Expr)}
    (h : ∀ slot ∈ slots, ∀ key ∈ slot.imageKeys, stringProperty? props' key = stringProperty? props key)
    (span span' : Span) :
    originsOf? slots (.object props' span') = originsOf? slots (.object props span) := by
  have hfound : (slots.filterMap (ItemImage.find? props')).map ItemImage.origin =
      (slots.filterMap (ItemImage.find? props)).map ItemImage.origin := by
    rw [List.map_filterMap, List.map_filterMap]
    apply List.filterMap_congr
    intro slot hslot
    rw [ItemImage.find?_origin, ItemImage.find?_origin]
    have hkeys := h slot hslot
    revert hkeys
    induction slot.imageKeys with
    | nil => exact fun _ => rfl
    | cons key keys ih =>
        intro hkeys
        rw [List.findSome?_cons, List.findSome?_cons, hkeys key List.mem_cons_self,
          ih fun k hk => hkeys k (List.mem_cons_of_mem _ hk)]
  have hempty := congrArg List.isEmpty hfound
  rw [List.isEmpty_map, List.isEmpty_map] at hempty
  simp only [originsOf?, ofExpr?, hempty]
  split
  · rfl
  · simp only [Option.map_some, origins, hfound]

theorem stringProperty?_shift (n : Nat) (props : List (Property Expr)) (key : Text) :
    stringProperty? (Expr.shiftProperties n props) key = stringProperty? props key := by
  have hcomp : ((fun p : Property Expr => p.key == some key) ∘ Property.shift n) =
      fun p => p.key == some key := rfl
  rw [stringProperty?, stringProperty?, Property.find?, Property.find?, Expr.shiftProperties_eq,
    ← List.map_reverse, List.find?_map, hcomp]
  cases props.reverse.find? fun p => p.key == some key with
  | none => rfl
  | some p => exact Expr.str?_shift n p.value

theorem CollectionItem.originsOf?_shift (slots : List ImageSlot) (n : Nat) (e : Expr) :
    originsOf? slots (e.shift n) = originsOf? slots e := by
  cases e with
  | object props span => exact originsOf?_object (fun _ _ key _ => stringProperty?_shift n props key) _ _
  | str => rfl
  | number => rfl
  | keyword => rfl
  | array => rfl
  | other => rfl

theorem textOf_braces (ns : List Node) : textOf [.group .curly ns] = braced ns := textOf_group _ _

/-- A row around an object. -/
theorem textOf_row {r : Row} {inside : List Node} (hcore : r.core = [.group .curly inside]) :
    textOf r.nodes = textOf r.lead ++ braced inside ++ textOf r.trail := by
  rw [Row.nodes, hcore, textOf_append, textOf_append, textOf_braces]

/-- An object that sizes are written into, and the keys that they are written under. -/
structure Target where
  span : Span
  keys : List Text

namespace Target

variable (overwrite : Bool) (t : Text)

/-- Whether a replacement writes numbers under the keys of a target. -/
structure Resized (target : Target) (r : Replacement) : Prop where
  span : r.span = target.span
  text : ∃ edits, r.text = writeAll overwrite (t.slice target.span) edits ∧
    ∀ e ∈ edits, e.key ∈ target.keys ∧ IsDigits e.value

def Clear (target : Target) : Prop := ObjectText.Clear overwrite target.keys (t.slice target.span)

end Target

section

variable {overwrite : Bool} {t : Text}

/-- An object of a text with numbers written into it is an object again. -/
theorem exists_resized {front back : Text} {inside : List Node} (ht : t = front ++ braced inside ++ back)
    (hlegible : Legible (lexemesOf inside) ['}']) {props : List (Property Expr)}
    (hprops : properties? (place (front.width + 1) inside) = some props) (hne : props ≠ [])
    {target : Target} (hspan : target.span = ⟨front.width, front.width + (braced inside).width⟩)
    (hkeys : ∀ key ∈ target.keys, IsKey key) (hclear : target.Clear overwrite t) {r : Replacement}
    (hr : target.Resized overwrite t r) :
    ∃ inside', r = ⟨⟨front.width, front.width + (braced inside).width⟩, braced inside'⟩ ∧
      Legible (lexemesOf inside') ['}'] ∧
      ∀ offset, ∃ props', properties? (place offset inside') = some props' ∧
        ∀ key, key ∉ target.keys → stringProperty? props' key = stringProperty? props key := by
  obtain ⟨edits, htext, hedits⟩ := hr.text
  have hslice : t.slice target.span = braced inside := by
    rw [hspan, ht]
    exact Text.slice_middle _ _ _
  rw [Target.Clear, hslice] at hclear
  obtain ⟨inside', hwritten, hlegible', hread⟩ :=
    exists_written hlegible hprops hne (hclear.inRows hkeys) hedits
  refine ⟨inside', ?_, hlegible', fun offset => ?_⟩
  · rw [hslice, hwritten] at htext
    rw [← hspan, ← htext, ← hr.span]
  · obtain ⟨props', hprops', hwritten⟩ := hread offset
    exact ⟨props', hprops', hwritten.strings⟩

/-- Properties written into the object that is the first argument leave an object as the first argument. -/
theorem exists_written_object {props : List (Property Expr)} {span : Span} {args : List Expr}
    (h : arguments? t = some (.object props span :: args)) (hne : props ≠ []) {keys : List Text}
    (hclear : ClearInRows overwrite keys (t.slice span)) {edits : List PropertyEdit}
    (hedits : ∀ e ∈ edits, e.key ∈ keys ∧ IsDigits e.value) :
    ∃ props' span' args', args'.length = args.length ∧
      arguments? (Replacement.applyAll t [⟨span, writeAll overwrite (t.slice span) edits⟩]) =
        some (.object props' span' :: args') ∧ WrittenInto props keys edits props' := by
  obtain ⟨lead, shape, inside, back, ht, hinside, hexpr, hexchange⟩ := exists_first h rfl
  obtain ⟨rfl, rfl, hprops⟩ := expr?_object hexpr
  rw [textOf_braces] at ht
  have hslice := Text.slice_middle lead (braced inside) back
  rw [← ht, ← textOf_braces, ← widthOf, widthOf_group, textOf_braces] at hslice
  rw [hslice] at hclear ⊢
  obtain ⟨inside', hwritten, hinside', hread⟩ := exists_written hinside hprops hne hclear hedits
  obtain ⟨props', hprops', hinto⟩ := hread (lead.width + 1)
  obtain ⟨args', hlength, hargs⟩ := hexchange inside' (.object props' _) hinside'
    (by rw [Tree.expr?, hprops', Option.map_some])
  have hafter : Replacement.applyAll t [⟨⟨lead.width, lead.width + (braced inside).width⟩, braced inside'⟩] =
      lead ++ textOf [.group .curly inside'] ++ back := by
    have hpieces := @Replacement.applyAll_pieces lead [⟨braced inside, braced inside', back⟩] _ (.refl _)
      (List.pairwise_singleton _ _)
    rw [ht, textOf_braces]
    simpa [Piece.oldText, Piece.newText, Piece.replacements] using hpieces
  rw [← hafter, ← textOf_braces, ← widthOf, widthOf_group] at hargs
  rw [hwritten]
  exact ⟨props', _, args', hlength, hargs, hinto⟩

/-- Numbers written into the object that is the first argument keep the strings of other keys. -/
theorem exists_resized_object {props : List (Property Expr)} {span : Span} {args : List Expr}
    (h : arguments? t = some (.object props span :: args)) (hne : props ≠ []) {target : Target}
    (hspan : target.span = span) (hkeys : ∀ key ∈ target.keys, IsKey key)
    (hclear : target.Clear overwrite t) {r : Replacement} (hr : target.Resized overwrite t r) :
    ∃ props' span' args', args'.length = args.length ∧
      arguments? (Replacement.applyAll t [r]) = some (.object props' span' :: args') ∧
      ∀ key, key ∉ target.keys → stringProperty? props' key = stringProperty? props key := by
  subst hspan
  obtain ⟨rspan, rtext⟩ := r
  obtain ⟨rfl, edits, rfl, hedits⟩ := hr
  obtain ⟨props', span', args', hlength, hargs, hinto⟩ :=
    exists_written_object h hne (hclear.inRows hkeys) hedits
  exact ⟨props', span', args', hlength, hargs, hinto.strings⟩

end

/-- Whether a segment is read, wherever it stands, as elements that have the images of the given ones. -/
def ReadsAs (slots : List ImageSlot) (seg : List Node) (elements : List Expr) : Prop :=
  ∀ offset, ∃ found, (∀ later, elements? (placeRow offset seg :: later) = (elements? later).map (found ++ ·)) ∧
    found.filterMap (CollectionItem.originsOf? slots) = elements.filterMap (CollectionItem.originsOf? slots)

theorem readsAs_blank {seg : List Node} (h : Blank seg) (slots : List ImageSlot) : ReadsAs slots seg [] := by
  refine fun offset => ⟨[], fun later => ?_, rfl⟩
  rw [placeRow_blank h, elements?]
  simp

theorem elements?_row {r : Row} {offset : Nat} {e : Expr} (h : segmentExpr? true (r.trees offset) = some e)
    (later : List (List Tree)) :
    elements? (placeRow offset r.nodes :: later) = (elements? later).map (e :: ·) := by
  obtain ⟨t, rest, htrees, -⟩ := r.trees_eq offset
  rw [r.placeRow_nodes, htrees, elements?, ← htrees, h, Option.bind_some]

theorem readsAs_row {r : Row} {offset : Nat} {e : Expr} (h : segmentExpr? true (r.trees offset) = some e)
    (slots : List ImageSlot) : ReadsAs slots r.nodes [e] := by
  intro offset'
  have hshift (n : Nat) : segmentExpr? true (r.trees n) = (segmentExpr? true (r.trees 0)).map (Expr.shift n) := by
    have := r.trees_shift n 0
    rw [Nat.zero_add] at this
    rw [this, segmentExpr?_shift]
  rw [hshift] at h
  obtain ⟨e₀, he₀, rfl⟩ := Option.map_eq_some_iff.1 h
  refine ⟨[e₀.shift offset'], fun later => elements?_row (by rw [hshift, he₀, Option.map_some]) later, ?_⟩
  rw [List.filterMap_cons, List.filterMap_cons, CollectionItem.originsOf?_shift,
    CollectionItem.originsOf?_shift]

/-- A row whose object is read with the strings of another is read with the images of that. -/
theorem readsAs_object {slots : List ImageSlot} {r : Row} {inside : List Node} {props : List (Property Expr)}
    (hcore : r.core = [.group .curly inside])
    (h : ∀ offset, ∃ props', properties? (place offset inside) = some props' ∧
      ∀ slot ∈ slots, ∀ key ∈ slot.imageKeys, stringProperty? props' key = stringProperty? props key)
    (span : Span) : ReadsAs slots r.nodes [.object props span] := by
  intro offset
  obtain ⟨props', hprops', hstrings⟩ := h (offset + widthOf r.lead + 1)
  have hread : segmentExpr? true (r.trees offset) = some (.object props' (r.span offset)) := by
    rw [Row.trees, hcore, segmentExpr?_braces, hprops', Option.map_some, Row.span, hcore, widthOf_group]
  refine ⟨[.object props' (r.span offset)], elements?_row hread, ?_⟩
  rw [List.filterMap_cons, List.filterMap_cons, CollectionItem.originsOf?_object hstrings]

/-- The text of segments, each behind a comma but the first, which stands behind another character. -/
def segText (opening : Char) : List (List Node) → Text
  | [] => []
  | seg :: segs => opening :: textOf seg ++ segText ',' segs

/-- Segments, each behind a comma. -/
def commaNodes (segs : List (List Node)) : List Node := segs.flatMap (.comma :: ·)

theorem append_commaNodes (pre seg : List Node) (segs : List (List Node)) :
    pre ++ commaNodes (seg :: segs) = (pre ++ .comma :: seg) ++ commaNodes segs := by
  simp [commaNodes]

theorem segText_comma (segs : List (List Node)) : segText ',' segs = textOf (commaNodes segs) := by
  induction segs with
  | nil => rfl
  | cons seg segs ih =>
      have hparts : commaNodes (seg :: segs) = .comma :: (seg ++ commaNodes segs) := rfl
      rw [segText, ih, hparts, textOf_cons, textOf_append]
      rfl

theorem commaNodes_eq {segs : List (List Node)} (h : segs ≠ []) : commaNodes segs = .comma :: commas segs := by
  cases segs with
  | nil => exact absurd rfl h
  | cons seg segs => rfl

theorem textOf_brackets {segs : List (List Node)} (h : segs ≠ []) :
    textOf [.group .square (commas segs)] = segText '[' segs ++ [']'] := by
  cases segs with
  | nil => exact absurd rfl h
  | cons seg segs =>
      rw [textOf_group, segText, segText_comma, commas, textOf_append]
      rfl

/-- Segments some of whose objects are exchanged. `front` is the text up to the first object, and what
stands behind the segments belongs to the last piece. -/
structure Exchanged (slots : List ImageSlot) (opening : Char) (offset : Nat) (behind : Text)
    (segs : List (List Node)) (elements : List Expr) (rs : List Replacement)
    (segs' : List (List Node)) (front : Text) (ps : List Piece) : Prop where
  length : segs'.length = segs.length
  uncut : ∀ seg ∈ segs', Uncut seg
  old : segText opening segs ++ behind = front ++ Piece.oldText ps
  new : segText opening segs' ++ behind = front ++ Piece.newText ps
  pieces : Piece.replacements (offset + front.width) ps = rs
  olds : ∀ p ∈ ps, p.old ≠ []
  legible : ∀ pre after, Legible (lexemesOf (pre ++ commaNodes segs)) after →
    Legible (lexemesOf (pre ++ commaNodes segs')) after
  reads : ∀ offset, ∃ found, elements? (placeAll offset segs') = some found ∧
    found.filterMap (CollectionItem.originsOf? slots) = elements.filterMap (CollectionItem.originsOf? slots)

namespace Exchanged

variable {slots : List ImageSlot} {opening : Char} {offset : Nat} {behind : Text}
  {segs segs' : List (List Node)} {elements : List Expr} {rs : List Replacement} {front : Text}
  {ps : List Piece}

theorem nil : Exchanged slots opening offset behind [] [] [] [] behind [] where
  length := rfl
  uncut := nofun
  old := (List.append_nil _).symm
  new := (List.append_nil _).symm
  pieces := rfl
  olds := nofun
  legible := fun _ _ h => h
  reads := fun _ => ⟨[], rfl, rfl⟩

/-- The images are read of the segments with another one in front. -/
theorem reads_cons {seg : List Node} {es : List Expr} (hreads : ReadsAs slots seg es)
    (h : Exchanged slots opening offset behind segs elements rs segs' front ps) (offset' : Nat) :
    ∃ found, elements? (placeAll offset' (seg :: segs')) = some found ∧
      found.filterMap (CollectionItem.originsOf? slots) =
        (es ++ elements).filterMap (CollectionItem.originsOf? slots) := by
  obtain ⟨first, hfirst, hsame⟩ := hreads offset'
  obtain ⟨found, hfound, hlater⟩ := h.reads (offset' + widthOf seg + 1)
  refine ⟨first ++ found, ?_, ?_⟩
  · rw [placeAll, hfirst, hfound, Option.map_some]
  · rw [List.filterMap_append, List.filterMap_append, hsame, hlater]

/-- A segment in front is kept. -/
theorem keep (hopening : opening.utf8Size = 1) {seg : List Node} (hseg : Uncut seg) {es : List Expr}
    (hreads : ReadsAs slots seg es)
    (h : Exchanged slots ',' (offset + 1 + widthOf seg) behind segs elements rs segs' front ps) :
    Exchanged slots opening offset behind (seg :: segs) (es ++ elements) rs (seg :: segs')
      (opening :: textOf seg ++ front) ps where
  length := by rw [List.length_cons, List.length_cons, h.length]
  uncut := List.forall_mem_cons.2 ⟨hseg, h.uncut⟩
  old := by rw [segText, List.append_assoc, h.old, List.append_assoc]
  new := by rw [segText, List.append_assoc, h.new, List.append_assoc]
  pieces := by
    rw [← h.pieces, Text.width_append, Text.width_cons, hopening, ← widthOf]
    congr 1
    omega
  olds := h.olds
  legible := by
    intro pre after hlegible
    rw [append_commaNodes] at hlegible ⊢
    exact h.legible _ _ hlegible
  reads := h.reads_cons hreads

/-- The object in a segment in front is exchanged. -/
theorem exchange (hopening : opening.utf8Size = 1) {r r' : Row} {inside inside' : List Node}
    (hcore : r.core = [.group .curly inside])
    (hnodes : r'.nodes = r.lead ++ .group .curly inside' :: r.trail)
    (hinside : Legible (lexemesOf inside') ['}']) {es : List Expr} (hreads : ReadsAs slots r'.nodes es)
    (h : Exchanged slots ',' (offset + 1 + r.width) behind segs elements rs segs' front ps) :
    Exchanged slots opening offset behind (r.nodes :: segs) (es ++ elements)
      (⟨⟨offset + 1 + widthOf r.lead, offset + 1 + widthOf r.lead + (braced inside).width⟩,
        braced inside'⟩ :: rs)
      (r'.nodes :: segs') (opening :: textOf r.lead)
      (⟨braced inside, braced inside', textOf r.trail ++ front⟩ :: ps) := by
  have hold : r.nodes = r.lead ++ .group .curly inside :: r.trail := by
    rw [Row.nodes, hcore]
    simp
  have htext (ns : List Node) : textOf (r.lead ++ .group .curly ns :: r.trail) =
      textOf r.lead ++ braced ns ++ textOf r.trail := by
    rw [textOf_append, textOf_cons, textOf_braces, List.append_assoc]
  refine ⟨?_, List.forall_mem_cons.2 ⟨r'.uncut, h.uncut⟩, ?_, ?_, ?_, ?_, ?_, h.reads_cons hreads⟩
  · rw [List.length_cons, List.length_cons, h.length]
  · rw [segText, List.append_assoc, h.old, hold, htext]
    simp [Piece.oldText]
  · rw [segText, List.append_assoc, h.new, hnodes, htext]
    simp [Piece.newText]
  · have hstart : offset + Text.width (opening :: textOf r.lead) = offset + 1 + widthOf r.lead := by
      rw [Text.width_cons, hopening, widthOf, Nat.add_assoc]
    have hwidth : r.width = widthOf r.lead + (braced inside).width + (textOf r.trail).width := by
      rw [Row.width, hold, widthOf, htext, Text.width_append, Text.width_append, widthOf]
    rw [Piece.replacements, hstart, ← h.pieces, hwidth, Text.width_append]
    congr 2
    dsimp only
    omega
  · refine List.forall_mem_cons.2 ⟨?_, h.olds⟩
    exact List.cons_ne_nil _ _
  · intro pre after hlegible
    have hgroup (ns : List Node) (segs : List (List Node)) :
        (pre ++ .comma :: (r.lead ++ .group .curly ns :: r.trail)) ++ commaNodes segs =
          (pre ++ .comma :: r.lead) ++ .group .curly ns :: (r.trail ++ commaNodes segs) := by simp
    rw [append_commaNodes, hold, hgroup] at hlegible
    rw [append_commaNodes, hnodes]
    apply h.legible
    rw [hgroup]
    exact hlegible.exchange_group hinside

end Exchanged

namespace CollectionItem

def target (item : CollectionItem) : Target := ⟨item.span, item.sizeKeys⟩

variable {slots : List ImageSlot} {e : Expr} {item : CollectionItem}
  (h : ofExpr? slots e = some item)

include h

/-- An item is an object with properties. -/
theorem exists_props : ∃ props, e = .object props item.span ∧ props ≠ [] := by
  unfold ofExpr? at h
  split at h
  · rename_i props span
    dsimp only at h
    split at h
    · cases h
    · rename_i hfound
      cases h
      refine ⟨props, rfl, ?_⟩
      rintro rfl
      apply hfound
      rw [List.isEmpty_iff, List.filterMap_eq_nil_iff]
      intro slot _
      rw [ItemImage.find?, List.findSome?_eq_none_iff]
      exact fun _ _ => rfl
  · cases h

theorem sizeKeys_subset : ∀ key ∈ item.sizeKeys, key ∈ (Shape.collection slots).sizeKeys := by
  intro key hkey
  obtain ⟨m, hm, hkey⟩ := List.mem_flatMap.1 hkey
  exact List.mem_flatMap.2 ⟨m.slot, slot_mem h hm, hkey⟩

end CollectionItem

section

variable {slots : List ImageSlot} (hslots : (Shape.collection slots).KeysApart) {overwrite : Bool} {t : Text}

include hslots

/-- The object of an item can be exchanged where it stands. -/
theorem exists_exchanged_item {r : Row} {front back : Text} (ht : t = front ++ textOf r.nodes ++ back)
    {after : Text} (hlegible : Legible (lexemesOf r.nodes) after) {e : Expr}
    (he : segmentExpr? true (r.trees front.width) = some e) {item : CollectionItem}
    (hitem : CollectionItem.ofExpr? slots e = some item) (hclear : item.target.Clear overwrite t)
    {replacement : Replacement} (hr : item.target.Resized overwrite t replacement) :
    ∃ inside inside', r.core = [.group .curly inside] ∧
      replacement = ⟨⟨front.width + widthOf r.lead, front.width + widthOf r.lead + (braced inside).width⟩,
        braced inside'⟩ ∧ Legible (lexemesOf inside') ['}'] ∧
      ∀ r' : Row, r'.core = [.group .curly inside'] → ReadsAs slots r'.nodes [e] := by
  obtain ⟨props, rfl, hne⟩ := CollectionItem.exists_props hitem
  have hsizes := CollectionItem.sizeKeys_subset hitem
  obtain ⟨inside, hcore, hspan, hprops⟩ := core_of_object he
  have hobject : t = (front ++ textOf r.lead) ++ braced inside ++ (textOf r.trail ++ back) := by
    rw [ht, textOf_row hcore]
    simp only [List.append_assoc]
  have hstart : Text.width (front ++ textOf r.lead) = front.width + widthOf r.lead :=
    Text.width_append _ _
  have hwidth : (braced inside).width = widthOf inside + 2 := by
    rw [← textOf_braces, ← widthOf, widthOf_group]
  have hinside : Legible (lexemesOf inside) ['}'] := by
    rw [Row.nodes, hcore, List.append_assoc, lexemesOf_append, List.singleton_append,
      lexemesOf_cons] at hlegible
    exact legible_group.1 (legible_append.1 (legible_append.1 hlegible).2).1
  rw [← hstart] at hprops
  obtain ⟨inside', hreplacement, hinside', hread⟩ := exists_resized hobject hinside hprops hne
    (by rw [hstart, hwidth]; exact hspan) (fun key hkey => hslots.isKey key (hsizes key hkey))
    hclear hr
  rw [hstart] at hreplacement
  refine ⟨inside, inside', hcore, hreplacement, hinside', fun r' hcore' => ?_⟩
  refine readsAs_object hcore' (fun offset => ?_) item.span
  obtain ⟨props', hprops', hstrings⟩ := hread offset
  refine ⟨props', hprops', fun slot hslot key hkey => hstrings key fun hsize => ?_⟩
  exact hslots.apart key (List.mem_flatMap.2 ⟨slot, hslot, hkey⟩) (hsizes key hsize)

/-- The objects of an array that have images can be exchanged for objects with sizes in them. -/
theorem exists_exchanged {segs : List (List Node)} (huncut : ∀ seg ∈ segs, Uncut seg) {opening : Char}
    (hopening : opening.utf8Size = 1) {before behind : Text}
    (ht : t = before ++ segText opening segs ++ behind) {after : Text}
    (hlegible : Legible (lexemesOf (commaNodes segs)) after) {elements : List Expr}
    (hread : elements? (placeAll (before.width + 1) segs) = some elements) {rs : List Replacement}
    (hclear : ∀ item ∈ elements.filterMap (CollectionItem.ofExpr? slots), item.target.Clear overwrite t)
    (hrs : List.Forall₂ (fun (item : CollectionItem) r => item.target.Resized overwrite t r)
      (elements.filterMap (CollectionItem.ofExpr? slots)) rs) :
    ∃ segs' front ps, Exchanged slots opening before.width behind segs elements rs segs' front ps := by
  induction segs generalizing opening before elements rs with
  | nil =>
      cases hread
      cases hrs
      exact ⟨[], behind, [], .nil⟩
  | cons seg segs ih =>
      obtain ⟨hseg, hsegs⟩ := List.forall_mem_cons.1 huncut
      have hnext : t = (before ++ opening :: textOf seg) ++ segText ',' segs ++ behind := by
        rw [ht, segText]
        simp
      have hwidth : Text.width (before ++ opening :: textOf seg) = before.width + 1 + widthOf seg := by
        rw [Text.width_append, Text.width_cons, hopening, widthOf, Nat.add_assoc]
      have hcommas : commaNodes (seg :: segs) = [.comma] ++ seg ++ commaNodes segs := by simp [commaNodes]
      rw [hcommas, lexemesOf_append, lexemesOf_append] at hlegible
      obtain ⟨hfirst, hlater⟩ := legible_append.1 hlegible
      obtain hblank | ⟨r, rfl⟩ := exists_row hseg
      · rw [placeAll, placeRow_blank hblank, elements?, ← hwidth] at hread
        obtain ⟨segs', front, ps, h⟩ := ih hsegs rfl hnext hlater hread hclear hrs
        rw [hwidth] at h
        exact ⟨_, _, _, h.keep hopening hseg (readsAs_blank hblank slots)⟩
      · obtain ⟨tree, rest, htrees, -⟩ := r.trees_eq (before.width + 1)
        rw [placeAll, r.placeRow_nodes, htrees, elements?, ← htrees, ← hwidth] at hread
        obtain ⟨e, he, hrest⟩ := Option.bind_eq_some_iff.1 hread
        obtain ⟨es, hes, rfl⟩ := Option.map_eq_some_iff.1 hrest
        cases hitem : CollectionItem.ofExpr? slots e with
        | none =>
            rw [List.filterMap_cons_none hitem] at hclear hrs
            obtain ⟨segs', front, ps, h⟩ := ih hsegs rfl hnext hlater hes hclear hrs
            rw [hwidth] at h
            exact ⟨_, _, _, h.keep hopening hseg (readsAs_row he slots)⟩
        | some item =>
            rw [List.filterMap_cons_some hitem] at hclear hrs
            obtain ⟨hitemClear, hclear⟩ := List.forall_mem_cons.1 hclear
            obtain ⟨replacement, rs, hr, hlaterRs, rfl⟩ := List.forall₂_cons_left_iff.1 hrs
            obtain ⟨segs', front, ps, h⟩ := ih hsegs rfl hnext hlater hes hclear hlaterRs
            have hfront : Text.width (before ++ [opening]) = before.width + 1 := by
              rw [Text.width_append, Text.width_cons, hopening]
              rfl
            have hitemText : t = (before ++ [opening]) ++ textOf r.nodes ++ (segText ',' segs ++ behind) := by
              rw [hnext]
              simp
            obtain ⟨inside, inside', hcore, hreplacement, hinside, hreads⟩ := exists_exchanged_item hslots
              hitemText (legible_append.1 hfirst).2 (by rw [hfront]; exact he) hitem hitemClear hr
            rw [hfront] at hreplacement
            rw [hwidth] at h
            rw [hreplacement]
            let r' := r.withCore [.group .curly inside'] (solid_singleton rfl rfl)
            have hnodes : r'.nodes = r.lead ++ .group .curly inside' :: r.trail := by
              simp [r', Row.nodes]
            exact ⟨_, _, _, h.exchange hopening hcore hnodes hinside (hreads r' rfl)⟩

/-- Sizes written into the objects of an array leave an array with the same images in the same order. -/
theorem exists_resized_array {elements : List Expr} {span : Span} {args : List Expr}
    (h : arguments? t = some (.array elements span :: args))
    (hclear : ∀ item ∈ elements.filterMap (CollectionItem.ofExpr? slots), item.target.Clear overwrite t)
    {rs rs' : List Replacement} (hperm : rs'.Perm rs)
    (hrs : List.Forall₂ (fun (item : CollectionItem) r => item.target.Resized overwrite t r)
      (elements.filterMap (CollectionItem.ofExpr? slots)) rs) :
    ∃ elements' span' args',
      arguments? (Replacement.applyAll t rs') = some (.array elements' span' :: args') ∧
      elements'.filterMap (CollectionItem.originsOf? slots) =
        elements.filterMap (CollectionItem.originsOf? slots) := by
  obtain ⟨lead, shape, inside, back, ht, hinside, hexpr, hexchange⟩ := exists_first h rfl
  obtain ⟨rfl, helements⟩ := expr?_array hexpr
  obtain ⟨segs, hne, huncut, rfl⟩ := exists_commas inside
  rw [place_commas hne huncut] at helements
  have hold : t = lead ++ segText '[' segs ++ ']' :: back := by
    rw [ht, textOf_brackets hne]
    simp
  have hcommas : Legible (lexemesOf (commaNodes segs)) [']'] := by
    rw [commaNodes_eq hne]
    exact ⟨stands_comma _, hinside⟩
  obtain ⟨segs', front, ps, hsegs⟩ := exists_exchanged hslots huncut (by rfl : '['.utf8Size = 1) hold hcommas
    helements hclear hrs
  have hne' : segs' ≠ [] := List.ne_nil_of_length_pos (by rw [hsegs.length]; exact List.length_pos_iff.2 hne)
  obtain ⟨found, hfound, hsame⟩ := hsegs.reads (lead.width + 1)
  obtain ⟨args', -, hargs⟩ := hexchange (commas segs') (.array found _) (by
      have := hsegs.legible [] [']'] hcommas
      rw [List.nil_append, commaNodes_eq hne'] at this
      exact this.2)
    (by rw [Tree.expr?, place_commas hne' hsegs.uncut, hfound, Option.map_some])
  have hafter : Replacement.applyAll t rs' = lead ++ textOf [.group .square (commas segs')] ++ back := by
    have hfront : (lead ++ front) ++ Piece.oldText ps = t := by
      rw [hold, List.append_assoc, List.append_assoc, hsegs.old]
    have hpieces := hsegs.pieces
    rw [← Text.width_append] at hpieces
    rw [← hfront, Replacement.applyAll_pieces (hpieces ▸ hperm) (Replacement.pairwise_pieces hsegs.olds _),
      List.append_assoc, ← hsegs.new, textOf_brackets hne']
    simp
  rw [← hafter] at hargs
  exact ⟨found, _, args', hargs, hsame⟩

end

end PugSize
