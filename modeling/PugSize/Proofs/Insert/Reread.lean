import Mathlib.Data.List.Perm.Basic
import PugSize.Proofs.Insert.Items
import PugSize.Proofs.Insert.Repeat

/-!
Argument texts that are read again after sizes have been written into them. Where every image is known,
an insert succeeds, and the new arguments have the same images in the same roles and the same order.
-/

namespace PugSize

open Script ObjectText

/-- The images that the reader of a shape finds, each in its role. -/
inductive FoundImages
  | file (path : Text)
  | options (pc sp : Option Text)
  | items (form : CollectionForm) (origins : List (List (Text × Text × ImageSlot)))
deriving DecidableEq

def FoundImages.paths : FoundImages → List Text
  | .file path => [path]
  | .options pc sp => pc.toList ++ sp.toList
  | .items _ origins => origins.flatten.map Prod.fst

namespace Shape

/-- What the reader of a shape finds in an argument text. -/
def images (t : Text) : Shape → Except ArgumentError FoundImages
  | .positional => (PositionalArguments.read t).map fun found => .file found.file
  | .options keys => (OptionArguments.read t keys).map fun found => .options found.pc found.sp
  | .collection slots => (CollectionArguments.read t slots).map fun found =>
      .items found.form (found.items.map CollectionItem.origins)

end Shape

/-- The object of options with the keys that the sizes of its images are written under. -/
def OptionArguments.target (keys : OptionKeys) (found : OptionArguments) : Target :=
  ⟨found.span, (if found.pc.isSome then [keys.pcWidth, keys.pcHeight] else []) ++
    if found.sp.isSome then [keys.spWidth, keys.spHeight] else []⟩

theorem OptionArguments.target_subset (keys : OptionKeys) (found : OptionArguments) :
    ∀ key ∈ (found.target keys).keys, key ∈ (Shape.options keys).sizeKeys := by
  intro key hkey
  simp only [target, List.mem_append] at hkey
  simp only [Shape.sizeKeys, List.mem_cons, List.not_mem_nil, or_false]
  obtain hkey | hkey := hkey
  · split at hkey
    · simp only [List.mem_cons, List.not_mem_nil, or_false] at hkey
      exact hkey.elim .inl fun h => .inr (.inl h)
    · cases hkey
  · split at hkey
    · simp only [List.mem_cons, List.not_mem_nil, or_false] at hkey
      exact .inr (.inr hkey)
    · cases hkey

/-- The objects of an argument text that sizes are written into. -/
def Shape.targets (t : Text) : Shape → List Target
  | .positional => []
  | .options keys => ((OptionArguments.read t keys).toOption.map (OptionArguments.target keys)).toList
  | .collection slots =>
      ((CollectionArguments.read t slots).toOption.map fun found => found.items.map CollectionItem.target).getD []

/-- Whether a later reading of an options object has the images of an earlier one, and a size for each. -/
structure OptionArguments.SizedAs (found found' : OptionArguments) : Prop where
  pc : found'.pc = found.pc
  sp : found'.sp = found.sp
  pcSize : found.pc.isSome = true → found'.hasPcWidth = true ∧ found'.hasPcHeight = true
  spSize : found.sp.isSome = true → found'.hasSpWidth = true ∧ found'.hasSpHeight = true

theorem OptionArguments.images_congr {keys : OptionKeys} {props props' : List (Property Expr)}
    (h : ∀ key ∈ (Shape.options keys).imageKeys, stringProperty? props' key = stringProperty? props key)
    (span span' : Span) :
    (ofProperties keys props' span').pc = (ofProperties keys props span).pc ∧
      (ofProperties keys props' span').sp = (ofProperties keys props span).sp := by
  simp only [ofProperties, h keys.pc (by simp [Shape.imageKeys]), h keys.sp (by simp [Shape.imageKeys]),
    and_self]

theorem OptionArguments.read_eq_ok {t : Text} {keys : OptionKeys} {found : OptionArguments} :
    OptionArguments.read t keys = .ok found ↔
      ∃ props span, arguments? t = some [.object props span] ∧ found = ofProperties keys props span ∧
        ¬(found.pc.isNone ∧ found.sp.isNone) := by
  constructor
  · intro h
    cases hargs : arguments? t with
    | none =>
        simp only [read, readArguments, hargs] at h
        cases h
    | some args =>
        simp only [read, readArguments, hargs, bind, Except.bind] at h
        split at h
        · cases h
        · rename_i props span
          split at h
          · cases h
          · rename_i hfound
            cases h
            exact ⟨props, span, rfl, rfl, hfound⟩
        · cases h
        · cases h
  · rintro ⟨props, span, hargs, rfl, hfound⟩
    simp only [read, readArguments, hargs, bind, Except.bind]
    exact if_neg hfound

/-- A collection is an array with items, or it is an item. -/
theorem CollectionArguments.read_eq_ok {t : Text} {slots : List ImageSlot} {found : CollectionArguments} :
    CollectionArguments.read t slots = .ok found ↔
      (∃ elements span args, arguments? t = some (.array elements span :: args) ∧
        elements.filterMap (CollectionItem.ofExpr? slots) ≠ [] ∧
        found = ⟨.array, elements.filterMap (CollectionItem.ofExpr? slots)⟩) ∨
      ∃ props span args item, arguments? t = some (.object props span :: args) ∧
        CollectionItem.ofExpr? slots (.object props span) = some item ∧ found = ⟨.object, [item]⟩ := by
  constructor
  · intro h
    cases hargs : arguments? t with
    | none =>
        simp only [read, readArguments, hargs] at h
        cases h
    | some args =>
        simp only [read, readArguments, hargs, bind, Except.bind] at h
        split at h
        · cases h
        · rename_i elements span args
          split at h
          · cases h
          · rename_i hitems
            cases h
            exact .inl ⟨elements, span, args, rfl, by simpa using hitems, rfl⟩
        · rename_i props span args
          split at h
          · rename_i item hitem
            cases h
            exact .inr ⟨props, span, args, item, rfl, hitem, rfl⟩
          · cases h
        · cases h
  · rintro (⟨elements, span, args, hargs, hitems, rfl⟩ | ⟨props, span, args, item, hargs, hitem, rfl⟩)
    · simp only [read, readArguments, hargs, bind, Except.bind]
      exact if_neg (by simpa using hitems)
    · simp only [read, readArguments, hargs, bind, Except.bind, hitem]

theorem exists_of_map_ok {ε α β : Type} {f : α → β} {x : Except ε α} {b : β} (h : x.map f = .ok b) :
    ∃ a, x = .ok a ∧ f a = b := by
  cases x with
  | error e => cases h
  | ok a => exact ⟨a, rfl, Except.ok.inj h⟩

namespace Insert

variable {σ : Type}

/-- Whether a plan succeeds with a result of some kind, whatever was looked up before. -/
def Plan.Succeeds {α : Type} (x : Plan σ α) (P : α → Prop) : Prop :=
  ∀ s, ∃ a s', x.run s = (.ok a, s') ∧ P a

namespace Plan.Succeeds

variable {α β : Type}

theorem pure {P : α → Prop} {a : α} (h : P a) : Plan.Succeeds (Pure.pure a : Plan σ α) P :=
  fun s => ⟨a, s, rfl, h⟩

theorem mono {x : Plan σ α} {P Q : α → Prop} (hx : x.Succeeds P) (h : ∀ a, P a → Q a) : x.Succeeds Q := by
  intro s
  obtain ⟨a, s', hrun, ha⟩ := hx s
  exact ⟨a, s', hrun, h a ha⟩

theorem bind {x : Plan σ α} {f : α → Plan σ β} {P : α → Prop} {Q : β → Prop} (hx : x.Succeeds P)
    (hf : ∀ a, P a → (f a).Succeeds Q) : (x >>= f).Succeeds Q := by
  intro s
  obtain ⟨a, s₁, hrun, ha⟩ := hx s
  obtain ⟨b, s₂, hlater, hb⟩ := hf a ha s₁
  refine ⟨b, s₂, ?_, hb⟩
  rw [Plan.run_bind, hrun]
  exact hlater

theorem mapM {f : α → Plan σ β} {P : α → β → Prop} {xs : List α} (h : ∀ x ∈ xs, (f x).Succeeds (P x)) :
    (xs.mapM f).Succeeds (List.Forall₂ P xs) := by
  induction xs with
  | nil =>
      rw [List.mapM_nil]
      exact .pure .nil
  | cons x xs ih =>
      obtain ⟨hx, hxs⟩ := List.forall_mem_cons.1 h
      rw [List.mapM_cons]
      exact hx.bind fun b hb => (ih hxs).bind fun bs hbs => .pure (.cons hb hbs)

theorem parsed {result : Except ArgumentError α} {a : α} (h : result = .ok a) :
    Plan.Succeeds (parsed result : Plan σ α) (a = ·) := by
  subst h
  exact .pure rfl

end Plan.Succeeds

/-- Whether an image has a size, whatever was looked up before. -/
def Answers (resolve : Resolver σ) (image : Text) : Prop :=
  ∀ s, ∃ size s', (resolve image).run s = (.ok size, s')

theorem forall_mem_flatten {α β : Type} {P : β → Prop} {xs : List α} {parts : List (List β)}
    (h : List.Forall₂ (fun _ part => ∀ b ∈ part, P b) xs parts) : ∀ b ∈ parts.flatten, P b := by
  induction h with
  | nil => nofun
  | cons hpart _ ih =>
      rw [List.flatten_cons]
      exact List.forall_mem_append.2 ⟨hpart, ih⟩

section

variable {resolve : Resolver σ} {request : SizeRequest}

theorem lookUp_succeeds {image : Text} (h : Answers resolve image) :
    (lookUp resolve image).Succeeds fun _ => True := by
  intro s
  obtain ⟨size, s', hresolve⟩ := h s
  have hrun : (lookUp resolve image).run s =
      (((resolve image).run s).1.mapError .resolution, ((resolve image).run s).2) := rfl
  rw [hresolve] at hrun
  exact ⟨size, s', hrun, trivial⟩

theorem scaledSize_succeeds {image : Text} (h : Answers resolve image) :
    (scaledSize resolve request image).Succeeds fun _ => True :=
  (lookUp_succeeds h).bind fun _ _ => .pure trivial

theorem itemEdits_succeeds {item : CollectionItem} (h : ∀ m ∈ item.images, Answers resolve m.image) :
    (itemEdits resolve request item).Succeeds fun edits => ∀ e ∈ edits, IsSize item.sizeKeys e := by
  have hparts (m : ItemImage) (hm : m ∈ item.images) : Plan.Succeeds (do
      return sizeEdits m.slot.widthKey m.slot.heightKey (← scaledSize resolve request m.image))
      fun part => ∀ e ∈ part, IsSize item.sizeKeys e := by
    refine (scaledSize_succeeds (h m hm)).bind fun size _ => .pure ?_
    apply isSize_of_sizeEdits <;> exact List.mem_flatMap.2 ⟨m, hm, by simp⟩
  exact (Plan.Succeeds.mapM hparts).bind fun parts hall => .pure (forall_mem_flatten hall)

/-- Sizes of a target written into its object. -/
theorem resized_objectReplacement {t : Text} {target : Target} {edits : List PropertyEdit}
    (h : ∀ e ∈ edits, IsSize target.keys e) :
    target.Resized request.overwrite t (objectReplacement t request target.span edits) := by
  refine ⟨rfl, edits, rfl, fun e he => ⟨(h e he).key, ?_⟩⟩
  obtain ⟨n, hn⟩ := (h e he).value
  rw [hn]
  exact isDigits_decimal n

variable {t : Text}

/-- A file by position is read again. -/
theorem intoPositional_reread {found : PositionalArguments} (hread : PositionalArguments.read t = .ok found)
    (hanswers : Answers resolve found.file) :
    (intoPositional resolve request t).Succeeds fun t' =>
      ∃ spans, PositionalArguments.read t' = .ok ⟨found.file, spans⟩ := by
  refine (Plan.Succeeds.parsed hread).bind ?_
  rintro _ rfl
  refine (scaledSize_succeeds hanswers).bind fun size _ => .pure ?_
  obtain ⟨spans, hagain, -⟩ := Slots.write_again hread size request.overwrite
  exact ⟨spans, hagain⟩

/-- Sizes are written into an options object, each under its key. -/
theorem intoOptions_succeeds {keys : OptionKeys} {found : OptionArguments}
    (hread : OptionArguments.read t keys = .ok found)
    (hanswers : ∀ image ∈ found.pc.toList ++ found.sp.toList, Answers resolve image) :
    (intoOptions resolve request keys t).Succeeds fun t' =>
      ∃ edits, t' = Replacement.applyAll t [objectReplacement t request found.span edits] ∧
        edits.map PropertyEdit.key = (found.target keys).keys ∧ ∀ e ∈ edits, IsDigits e.value := by
  refine (Plan.Succeeds.parsed hread).bind ?_
  rintro _ rfl
  have hroles : ∀ role ∈ [(found.pc, keys.pcWidth, keys.pcHeight), (found.sp, keys.spWidth, keys.spHeight)],
      ∀ image ∈ role.1, Answers resolve image := by
    simp only [List.forall_mem_cons]
    refine ⟨fun image himage => hanswers image ?_, fun image himage => hanswers image ?_, nofun⟩
    · exact List.mem_append_left _ (Option.mem_toList.2 himage)
    · exact List.mem_append_right _ (Option.mem_toList.2 himage)
  refine (Plan.Succeeds.mapM (P := fun role part =>
    part.map PropertyEdit.key = (if role.1.isSome then [role.2.1, role.2.2] else []) ∧
      ∀ e ∈ part, IsDigits e.value) ?_).bind ?_
  · rintro ⟨image, widthKey, heightKey⟩ hrole
    cases image with
    | none => exact .pure ⟨rfl, nofun⟩
    | some image =>
        refine (scaledSize_succeeds (hroles _ hrole image rfl)).bind fun size _ => .pure ⟨rfl, ?_⟩
        simp only [sizeEdits, List.forall_mem_cons]
        exact ⟨isDigits_decimal _, isDigits_decimal _, nofun⟩
  · intro parts hparts
    obtain ⟨pc, later, ⟨hpc, hpcDigits⟩, hlater, rfl⟩ := List.forall₂_cons_left_iff.1 hparts
    obtain ⟨sp, later, ⟨hsp, hspDigits⟩, hnil, rfl⟩ := List.forall₂_cons_left_iff.1 hlater
    obtain rfl := List.forall₂_nil_left_iff.1 hnil
    refine .pure ⟨_, rfl, ?_, ?_⟩
    · simp only [List.flatten_cons, List.flatten_nil, List.append_nil, List.map_append, hpc, hsp]
      rfl
    · simp only [List.flatten_cons, List.flatten_nil, List.append_nil]
      exact List.forall_mem_append.2 ⟨hpcDigits, hspDigits⟩

/-- Sizes written into an options object are read back, and so are its images. -/
theorem intoOptions_sized {keys : OptionKeys} {found : OptionArguments}
    (hread : OptionArguments.read t keys = .ok found)
    (hanswers : ∀ image ∈ found.pc.toList ++ found.sp.toList, Answers resolve image)
    (hapart : ∀ key ∈ (Shape.options keys).imageKeys, key ∉ (found.target keys).keys)
    (hclear : ClearInRows request.overwrite (found.target keys).keys (t.slice found.span)) :
    (intoOptions resolve request keys t).Succeeds fun t' =>
      ∃ found', OptionArguments.read t' keys = .ok found' ∧ found.SizedAs found' := by
  refine (intoOptions_succeeds hread hanswers).mono ?_
  rintro t' ⟨edits, rfl, hedits, hdigits⟩
  obtain ⟨props, span, hargs, rfl, hfound⟩ := OptionArguments.read_eq_ok.1 hread
  have hne : props ≠ [] := by
    rintro rfl
    exact hfound ⟨rfl, rfl⟩
  obtain ⟨props', span', args', hlength, hagain, hinto⟩ := exists_written_object hargs hne hclear
    fun e he => ⟨hedits ▸ List.mem_map_of_mem he, hdigits e he⟩
  obtain rfl := List.eq_nil_of_length_eq_zero hlength
  have hhas (key : Text) (hkey : key ∈ ((OptionArguments.ofProperties keys props span).target keys).keys) :
      hasProperty props' key = true := by
    rw [← hedits] at hkey
    obtain ⟨e, he, rfl⟩ := List.mem_map.1 hkey
    exact hinto.has e he
  obtain ⟨hpc, hsp⟩ := OptionArguments.images_congr
    (fun key hkey => hinto.strings key (hapart key hkey)) span span'
  refine ⟨_, OptionArguments.read_eq_ok.2 ⟨props', span', hagain, rfl, by rwa [hpc, hsp]⟩, hpc, hsp, ?_, ?_⟩
  · intro hsome
    rw [OptionArguments.target, if_pos hsome] at hhas
    exact ⟨hhas _ (by simp), hhas _ (by simp)⟩
  · intro hsome
    rw [OptionArguments.target, if_pos hsome] at hhas
    exact ⟨hhas _ (by simp), hhas _ (by simp)⟩

/-- The images of an options object are read again. -/
theorem intoOptions_reread {keys : OptionKeys} (hkeys : (Shape.options keys).KeysApart)
    {found : OptionArguments} (hread : OptionArguments.read t keys = .ok found)
    (hanswers : ∀ image ∈ found.pc.toList ++ found.sp.toList, Answers resolve image)
    (hclear : (found.target keys).Clear request.overwrite t) :
    (intoOptions resolve request keys t).Succeeds fun t' =>
      ∃ found', OptionArguments.read t' keys = .ok found' ∧ found'.pc = found.pc ∧ found'.sp = found.sp := by
  have hsizes := OptionArguments.target_subset keys found
  have hisKey : ∀ key ∈ (found.target keys).keys, IsKey key := fun key hkey => hkeys.isKey key (hsizes key hkey)
  refine (intoOptions_sized hread hanswers (fun key hkey hsize => hkeys.apart key hkey (hsizes key hsize))
    (ObjectText.Clear.inRows hclear hisKey)).mono ?_
  rintro t' ⟨found', hagain, hsized⟩
  exact ⟨found', hagain, hsized.pc, hsized.sp⟩

/-- The images of a collection are read again, in the same items in the same order. -/
theorem intoCollection_reread {slots : List ImageSlot} (hslots : (Shape.collection slots).KeysApart)
    {found : CollectionArguments} (hread : CollectionArguments.read t slots = .ok found)
    (hanswers : ∀ item ∈ found.items, ∀ m ∈ item.images, Answers resolve m.image)
    (hclear : ∀ item ∈ found.items, item.target.Clear request.overwrite t) :
    (intoCollection resolve request slots t).Succeeds fun t' =>
      ∃ found', CollectionArguments.read t' slots = .ok found' ∧ found'.form = found.form ∧
        found'.items.map CollectionItem.origins = found.items.map CollectionItem.origins := by
  refine (Plan.Succeeds.parsed hread).bind ?_
  rintro _ rfl
  refine (Plan.Succeeds.mapM
    (P := fun (item : CollectionItem) r => item.target.Resized request.overwrite t r) ?_).bind ?_
  · intro item hitem
    refine (itemEdits_succeeds (hanswers item (List.mem_mergeSort.1 hitem))).bind fun edits hedits => ?_
    exact .pure (resized_objectReplacement hedits)
  · intro sorted hsorted
    apply Plan.Succeeds.pure
    obtain ⟨rs, hrs, hperm⟩ := List.perm_comp_forall₂ (List.mergeSort_perm _ _).symm hsorted
    obtain ⟨elements, span, args, hargs, hne, rfl⟩ | ⟨props, span, args, item, hargs, hitem, rfl⟩ :=
      CollectionArguments.read_eq_ok.1 hread
    · obtain ⟨elements', span', args', hagain, hsame⟩ :=
        exists_resized_array hslots hargs hclear hperm.symm hrs
      have horigins (es : List Expr) :
          (es.filterMap (CollectionItem.ofExpr? slots)).map CollectionItem.origins =
            es.filterMap (CollectionItem.originsOf? slots) := List.map_filterMap
      refine ⟨_, CollectionArguments.read_eq_ok.2 (.inl ⟨elements', span', args', hagain, ?_, rfl⟩), rfl, ?_⟩
      · intro hnil
        have := horigins elements'
        rw [hnil, hsame, ← horigins] at this
        exact hne (List.map_eq_nil_iff.1 this.symm)
      · show (elements'.filterMap _).map _ = (elements.filterMap _).map _
        rw [horigins, horigins, hsame]
    · obtain ⟨r, rs, hr, hnil, rfl⟩ := List.forall₂_cons_left_iff.1 hrs
      obtain rfl := List.forall₂_nil_left_iff.1 hnil
      obtain rfl := List.perm_singleton.1 hperm.symm
      obtain ⟨props₁, hobject, hne⟩ := CollectionItem.exists_props hitem
      obtain ⟨rfl, rfl⟩ := Expr.object.inj hobject
      have hsizes := CollectionItem.sizeKeys_subset hitem
      obtain ⟨props', span', args', -, hagain, hstrings⟩ := exists_resized_object hargs hne
        (rfl : item.target.span = item.span) (fun key hkey => hslots.isKey key (hsizes key hkey))
        (hclear item List.mem_cons_self) hr
      have hsame := CollectionItem.originsOf?_object (fun slot hslot key hkey => hstrings key fun hsize =>
        hslots.apart key (List.mem_flatMap.2 ⟨slot, hslot, hkey⟩) (hsizes key hsize)) item.span span'
      rw [CollectionItem.originsOf?, CollectionItem.originsOf?, hitem, Option.map_some] at hsame
      obtain ⟨item', hitem', horigins⟩ := Option.map_eq_some_iff.1 hsame
      exact ⟨_, CollectionArguments.read_eq_ok.2 (.inr ⟨props', span', args', item', hagain, hitem', rfl⟩), rfl,
        congrArg (fun origins => [origins]) horigins⟩

end

/-- Where the images of a shape are found, sizes are written so that the same images are found again. -/
theorem intoShape_reread {resolve : Resolver σ} {request : SizeRequest} {t : Text} {shape : Shape}
    (hshape : shape.KeysApart) {found : FoundImages} (hfound : shape.images t = .ok found)
    (hanswers : ∀ path ∈ found.paths, Answers resolve path)
    (hclear : ∀ target ∈ shape.targets t, target.Clear request.overwrite t) :
    (intoShape resolve request t shape).Succeeds fun t' => shape.images t' = .ok found := by
  cases shape with
  | positional =>
      obtain ⟨args, hread, rfl⟩ := exists_of_map_ok hfound
      refine (intoPositional_reread hread (hanswers _ (List.mem_singleton_self _))).mono ?_
      rintro t' ⟨spans, hagain⟩
      rw [Shape.images, hagain]
      rfl
  | options keys =>
      obtain ⟨options, hread, rfl⟩ := exists_of_map_ok hfound
      rw [Shape.targets, hread] at hclear
      refine (intoOptions_reread hshape hread hanswers (hclear _ (List.mem_singleton_self _))).mono ?_
      rintro t' ⟨options', hagain, hpc, hsp⟩
      rw [Shape.images, hagain, Except.map, hpc, hsp]
  | collection slots =>
      obtain ⟨args, hread, rfl⟩ := exists_of_map_ok hfound
      rw [Shape.targets, hread] at hclear
      refine (intoCollection_reread hshape hread (fun item hitem m hm => hanswers _ ?_)
        fun item hitem => hclear _ (List.mem_map_of_mem hitem)).mono ?_
      · have horigin : m.origin ∈ (args.items.map CollectionItem.origins).flatten :=
          List.mem_flatten.2 ⟨_, List.mem_map_of_mem hitem, List.mem_map_of_mem hm⟩
        exact List.mem_map_of_mem (f := Prod.fst) horigin
      · rintro t' ⟨args', hagain, hform, horigins⟩
        rw [Shape.images, hagain, Except.map, hform, horigins]

/-- The shapes of the rules in a new configuration file. -/
theorem starter_shapes :
    (Registry.ofEntries Registry.starterEntries).rules.map Rule.shape =
      [.positional, .options OptionKeys.standard,
       .collection [⟨["image".toList], "width".toList, "height".toList⟩,
         ⟨["imageSp".toList], "widthSp".toList, "heightSp".toList⟩]] := by
  decide +kernel

theorem keysApart_of_starter {rule : Rule}
    (h : rule ∈ (Registry.ofEntries Registry.starterEntries).rules) : rule.shape.KeysApart := by
  have hshape := List.mem_map_of_mem (f := Rule.shape) h
  have hkey : ∀ key ∈ ["width".toList, "height".toList, "widthSp".toList, "heightSp".toList], IsKey key := by
    simp only [List.forall_mem_cons]
    exact ⟨⟨⟨_, _, rfl, by decide⟩, List.all_eq_true.1 (by decide)⟩,
      ⟨⟨_, _, rfl, by decide⟩, List.all_eq_true.1 (by decide)⟩,
      ⟨⟨_, _, rfl, by decide⟩, List.all_eq_true.1 (by decide)⟩,
      ⟨⟨_, _, rfl, by decide⟩, List.all_eq_true.1 (by decide)⟩, nofun⟩
  rw [starter_shapes] at hshape
  simp only [List.mem_cons, List.not_mem_nil, or_false] at hshape
  obtain hshape | hshape | hshape := hshape <;> rw [hshape]
  · exact ⟨nofun, nofun⟩
  · exact ⟨hkey, by decide⟩
  · exact ⟨hkey, by decide⟩

/-- An insert by a standard rule does not break the call: where every image of an argument text has a size,
the sizes are written, and the new text is read again with the same images in the same roles and items.
Left out are objects in which the comma behind the last property is hidden from the place where a size is
added, or a comment inside brackets cuts the value that a size is written over. -/
theorem starter_reread {resolve : Resolver σ} {request : SizeRequest} {t : Text} {rule : Rule}
    (hrule : rule ∈ (Registry.ofEntries Registry.starterEntries).rules) {found : FoundImages}
    (hfound : rule.shape.images t = .ok found) (hanswers : ∀ path ∈ found.paths, Answers resolve path)
    (hclear : ∀ target ∈ rule.shape.targets t, target.Clear request.overwrite t) (s : σ) :
    ∃ t' s', (intoShape resolve request t rule.shape).run s = (.ok t', s') ∧
      rule.shape.images t' = .ok found :=
  intoShape_reread (keysApart_of_starter hrule) hfound hanswers hclear s

/-- The last of two values in brackets is written over, and a size is added on a line of its own. -/
theorem starter_reread_lines :
    let t := "\x7b pc: \"a.jpg\", width: [2 /**/], width: [1], // c\n\x7d".toList
    let rule : Rule := ⟨"picture".toList, .options OptionKeys.standard⟩
    let resolve : Resolver Unit := fun _ => pure (.ok ⟨640, 480⟩)
    let request : SizeRequest := ⟨⟨0, 0⟩, .full, true, []⟩
    let found : FoundImages := .options (some "a.jpg".toList) none
    rule ∈ (Registry.ofEntries Registry.starterEntries).rules ∧ rule.shape.images t = .ok found ∧
      (∀ path ∈ found.paths, Answers resolve path) ∧
      (∀ target ∈ rule.shape.targets t, target.Clear request.overwrite t) ∧
      ∃ t' s', (intoShape resolve request t rule.shape).run () = (.ok t', s') ∧
        rule.shape.images t' = .ok found := by
  have hrule : (⟨"picture".toList, .options OptionKeys.standard⟩ : Rule) ∈
      (Registry.ofEntries Registry.starterEntries).rules := by decide +kernel
  have hread : OptionArguments.read "\x7b pc: \"a.jpg\", width: [2 /**/], width: [1], // c\n\x7d".toList
      OptionKeys.standard =
      .ok { span := ⟨0, 50⟩, pc := some "a.jpg".toList, sp := none, hasPcWidth := true,
            hasPcHeight := false, hasSpWidth := false, hasSpHeight := false } := by cbv
  have hslice : Text.slice "\x7b pc: \"a.jpg\", width: [2 /**/], width: [1], // c\n\x7d".toList ⟨0, 50⟩ =
      "\x7b pc: \"a.jpg\", width: [2 /**/], width: [1], // c\n\x7d".toList := by cbv
  have hargs : arguments? "\x7b pc: \"a.jpg\", width: [2 /**/], width: [1], // c\n\x7d".toList =
      some [.object
        [⟨some "pc".toList, ⟨2, 13⟩, .str "a.jpg".toList ⟨6, 13⟩⟩,
         ⟨some "width".toList, ⟨15, 30⟩, .array [.number ⟨23, 24⟩] ⟨22, 30⟩⟩,
         ⟨some "width".toList, ⟨32, 42⟩, .array [.number ⟨40, 41⟩] ⟨39, 42⟩⟩] ⟨0, 50⟩] := by cbv
  have hvalue : commentInside 0 (scan (Text.slice
      "\x7b pc: \"a.jpg\", width: [2 /**/], width: [1], // c\n\x7d".toList ⟨39, 42⟩)).1 = false := by cbv
  have hcomma : SeesComma "\x7b pc: \"a.jpg\", width: [2 /**/], width: [1], // c\n\x7d".toList := by decide +kernel
  intro t rule resolve request found
  have hfound : rule.shape.images t = .ok found := congrArg (Except.map _) hread
  have hanswers : ∀ path ∈ found.paths, Answers resolve path := fun path _ s => ⟨_, s, rfl⟩
  have hclear : ∀ target ∈ rule.shape.targets t, target.Clear request.overwrite t := by
    have htargets : rule.shape.targets t = [⟨⟨0, 50⟩, ["width".toList, "height".toList]⟩] :=
      congrArg (fun found => (found.toOption.map (OptionArguments.target OptionKeys.standard)).toList) hread
    rw [htargets]
    intro target htarget
    rw [List.mem_singleton.1 htarget, Target.Clear, hslice]
    refine ⟨fun _ => hcomma, fun _ props hprops key hkey i p hlast => ?_⟩
    obtain ⟨hplace, hseen, hlater⟩ := hlast
    rw [hargs] at hprops
    cases hprops
    simp only [List.mem_cons, List.not_mem_nil, or_false] at hkey
    have hname := hseen.name
    obtain rfl | rfl := hkey
    · obtain _ | _ | _ | i := i
      · cases hplace
        exact absurd hname (by decide +kernel)
      · exact absurd ⟨by decide +kernel, by decide +kernel⟩ (hlater 2 _ (by decide) rfl)
      · cases hplace
        exact hvalue
      · cases hplace
    · obtain _ | _ | _ | i := i
      · cases hplace
        exact absurd hname (by decide +kernel)
      · cases hplace
        exact absurd hname (by decide +kernel)
      · cases hplace
        exact absurd hname (by decide +kernel)
      · cases hplace
  exact ⟨hrule, hfound, hanswers, hclear, starter_reread hrule hfound hanswers hclear ()⟩

/-- A comment behind the comma that ends an object hides the comma, and a second one is put there. -/
theorem intoOptions_doubles_comma :
    OptionArguments.read "\x7b pc: \"a.jpg\", /* c */ \x7d".toList OptionKeys.standard =
      .ok { span := ⟨0, 24⟩, pc := some "a.jpg".toList, sp := none, hasPcWidth := false,
            hasPcHeight := false, hasSpWidth := false, hasSpHeight := false } ∧
    intoOptions (fun _ => pure (.ok ⟨640, 480⟩)) ⟨⟨0, 0⟩, .full, true, []⟩ OptionKeys.standard
        "\x7b pc: \"a.jpg\", /* c */ \x7d".toList () =
      (.ok "\x7b pc: \"a.jpg\", /* c */, width: 640, height: 480 \x7d".toList, ()) ∧
    OptionArguments.read "\x7b pc: \"a.jpg\", /* c */, width: 640, height: 480 \x7d".toList
      OptionKeys.standard = .error .unparsable := by
  refine ⟨by cbv, by cbv, by cbv⟩

/-- A comment inside brackets cuts a value, and its end is left behind the number written over it. -/
example : ObjectText.write true "\x7b pc: \"a.jpg\", width: [1 /* c */] \x7d".toList
    ⟨"width".toList, "640".toList⟩ = "\x7b pc: \"a.jpg\", width: 640 /* c */] \x7d".toList := by cbv

end Insert
end PugSize
