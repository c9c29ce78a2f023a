import PugSize.Proofs.Edit.Characters
import PugSize.Proofs.Insert.Frame

/-!
The characters of a planned edit. Whatever is looked up, the new arguments of a call are made of the
characters of the old ones, of the keys that its rule has for sizes, of digits and of a few marks.
-/

namespace PugSize

/-- The keys that sizes are written under. -/
def Shape.sizeKeys : Shape → List Text
  | .positional => []
  | .options keys => [keys.pcWidth, keys.pcHeight, keys.spWidth, keys.spHeight]
  | .collection slots => slots.flatMap fun slot => [slot.widthKey, slot.heightKey]

/-- The images of an item stand in slots that are looked for. -/
theorem CollectionItem.slot_mem {slots : List ImageSlot} {e : Script.Expr} {item : CollectionItem}
    (h : CollectionItem.ofExpr? slots e = some item) {m : ItemImage} (hm : m ∈ item.images) :
    m.slot ∈ slots := by
  unfold CollectionItem.ofExpr? at h
  split at h
  · dsimp only at h
    split at h
    · cases h
    · rw [Option.some.injEq] at h
      subst h
      obtain ⟨slot, hslot, himage⟩ := List.mem_filterMap.1 hm
      obtain ⟨key, -, hkey⟩ := List.exists_of_findSome?_eq_some himage
      obtain ⟨image, -, rfl⟩ := Option.map_eq_some_iff.1 hkey
      exact hslot
  · cases h

theorem CollectionArguments.slot_mem {t : Text} {slots : List ImageSlot}
    {found : CollectionArguments} (h : CollectionArguments.read t slots = .ok found)
    {item : CollectionItem} (hitem : item ∈ found.items) {m : ItemImage} (hm : m ∈ item.images) :
    m.slot ∈ slots := by
  simp only [read, bind, Except.bind] at h
  split at h
  · cases h
  split at h
  · cases h
  · split at h
    · cases h
    · rw [Except.ok.injEq] at h
      subst h
      obtain ⟨e, -, he⟩ := List.mem_filterMap.1 hitem
      exact CollectionItem.slot_mem he hm
  · split at h
    · rename_i found' he
      rw [Except.ok.injEq] at h
      subst h
      obtain rfl := List.mem_singleton.1 hitem
      exact CollectionItem.slot_mem he hm
    · cases h
  · cases h

namespace Insert

variable {σ : Type}

/-- What holds of every result of a plan for one member holds of all results. -/
theorem Plan.forall_of_mapM {α β : Type} {f : α → Plan σ β} {Q : β → Prop} {xs : List α}
    (hf : ∀ x ∈ xs, ∀ s b s', (f x).run s = (.ok b, s') → Q b) {s s' : σ} {ys : List β}
    (h : (xs.mapM f).run s = (.ok ys, s')) : ∀ y ∈ ys, Q y := by
  induction xs generalizing s ys with
  | nil =>
      rw [List.mapM_nil] at h
      cases h
      nofun
  | cons x xs ih =>
      rw [List.mapM_cons] at h
      obtain ⟨b, s₁, hx, h⟩ := Plan.bind_eq_ok h
      obtain ⟨bs, s₂, hxs, h⟩ := Plan.bind_eq_ok h
      cases h
      rw [List.forall_mem_cons]
      exact ⟨hf x List.mem_cons_self _ _ _ hx,
        ih (fun y hy => hf y (List.mem_cons_of_mem _ hy)) hxs⟩

theorem parsed_eq_ok {α : Type} {result : Except ArgumentError α} {s s' : σ} {a : α}
    (h : (parsed result).run s = (.ok a, s')) : result = .ok a := by
  cases result with
  | error e => cases h
  | ok b =>
      cases h
      rfl

/-- Whether a property is a size under one of the keys. -/
structure IsSize (keys : List Text) (e : PropertyEdit) : Prop where
  key : e.key ∈ keys
  value : ∃ n, e.value = decimal n

theorem isSize_of_sizeEdits {keys : List Text} {widthKey heightKey : Text} {size : Size}
    (hwidth : widthKey ∈ keys) (hheight : heightKey ∈ keys) :
    ∀ e ∈ sizeEdits widthKey heightKey size, IsSize keys e := by
  intro e he
  simp only [sizeEdits, List.mem_cons, List.not_mem_nil, or_false] at he
  obtain rfl | rfl := he
  · exact ⟨hwidth, _, rfl⟩
  · exact ⟨hheight, _, rfl⟩

variable {resolve : Resolver σ} {request : SizeRequest} {t newText : Text} {s s' : σ}

theorem isSize_of_itemEdits {keys : List Text} {item : CollectionItem} {edits : List PropertyEdit}
    (hkeys : ∀ m ∈ item.images, m.slot.widthKey ∈ keys ∧ m.slot.heightKey ∈ keys)
    (h : (itemEdits resolve request item).run s = (.ok edits, s')) : ∀ e ∈ edits, IsSize keys e := by
  obtain ⟨parts, s₁, hparts, h⟩ := Plan.bind_eq_ok h
  cases h
  have hall := Plan.forall_of_mapM (Q := fun part => ∀ e ∈ part, IsSize keys e) ?_ hparts
  · simpa only [List.mem_flatten, forall_exists_index, and_imp] using
      fun e part hpart he => hall part hpart e he
  · intro m hm s b s' hb
    obtain ⟨size, s₂, -, hb⟩ := Plan.bind_eq_ok hb
    cases hb
    exact isSize_of_sizeEdits (hkeys m hm).1 (hkeys m hm).2

/-- What separates arguments and properties, and the quotes of an empty string. -/
def marks : List Char := [',', ' ', '\t', '\n', ':', '"', '\'']

/-- Whether a character stands in new arguments for sizes under the given keys. -/
def Written (keys : List Text) (t : Text) (c : Char) : Prop :=
  c ∈ t ∨ (∃ key ∈ keys, c ∈ key) ∨ c.isDigit = true ∨ c ∈ marks

theorem written_objectReplacement {keys : List Text} {span : Span} {edits : List PropertyEdit}
    (hedits : ∀ e ∈ edits, IsSize keys e) {c : Char}
    (hc : c ∈ (objectReplacement t request span edits).text) : Written keys t c := by
  obtain hc | ⟨e, he, hc | hc⟩ | hc := ObjectText.mem_writeAll hc
  · exact .inl (Text.mem_of_mem_slice hc)
  · exact .inr (.inl ⟨_, (hedits e he).key, hc⟩)
  · obtain ⟨n, hn⟩ := (hedits e he).value
    rw [hn] at hc
    exact .inr (.inr (.inl ((isDigits_decimal n).2 c hc)))
  · refine .inr (.inr (.inr ?_))
    simp only [List.mem_cons, List.not_mem_nil, or_false] at hc
    obtain rfl | rfl | rfl | rfl | rfl := hc <;> simp [marks]

theorem written_applyAll {keys : List Text} {rs : List Replacement}
    (h : ∀ r ∈ rs, ∀ c ∈ r.text, Written keys t c) {c : Char}
    (hc : c ∈ Replacement.applyAll t rs) : Written keys t c := by
  obtain hc | ⟨r, hr, hc⟩ := Replacement.mem_applyAll hc
  · exact .inl hc
  · exact h r hr c hc

theorem written_intoPositional (h : (intoPositional resolve request t).run s = (.ok newText, s'))
    {c : Char} (hc : c ∈ newText) : Written [] t c := by
  obtain ⟨found, s₁, -, h⟩ := Plan.bind_eq_ok h
  obtain ⟨size, s₂, -, h⟩ := Plan.bind_eq_ok h
  cases h
  obtain hc | hc | hc := Slots.mem_write hc
  · exact .inl hc
  · exact .inr (.inr (.inl hc))
  · refine .inr (.inr (.inr ?_))
    simp only [List.mem_cons, List.not_mem_nil, or_false] at hc
    obtain rfl | rfl | rfl | rfl := hc <;> simp [marks]

theorem written_intoOptions {keys : OptionKeys}
    (h : (intoOptions resolve request keys t).run s = (.ok newText, s')) {c : Char}
    (hc : c ∈ newText) : Written (Shape.options keys).sizeKeys t c := by
  obtain ⟨found, s₁, -, h⟩ := Plan.bind_eq_ok h
  obtain ⟨edits, s₂, hedits, h⟩ := Plan.bind_eq_ok h
  cases h
  have hall := Plan.forall_of_mapM
    (Q := fun part => ∀ e ∈ part, IsSize (Shape.options keys).sizeKeys e) ?_ hedits
  · refine written_applyAll ?_ hc
    intro r hr c hc
    rw [List.mem_singleton.1 hr] at hc
    refine written_objectReplacement ?_ hc
    simpa only [List.mem_flatten, forall_exists_index, and_imp] using
      fun e part hpart he => hall part hpart e he
  · rintro ⟨image, widthKey, heightKey⟩ hrole s b s' hb
    have hkeys : widthKey ∈ (Shape.options keys).sizeKeys ∧
        heightKey ∈ (Shape.options keys).sizeKeys := by
      simp only [List.mem_cons, Prod.mk.injEq, List.not_mem_nil, or_false] at hrole
      obtain ⟨-, rfl, rfl⟩ | ⟨-, rfl, rfl⟩ := hrole <;> simp [Shape.sizeKeys]
    cases image with
    | none =>
        cases hb
        nofun
    | some image =>
        obtain ⟨size, s₃, -, hb⟩ := Plan.bind_eq_ok hb
        cases hb
        exact isSize_of_sizeEdits hkeys.1 hkeys.2

theorem written_intoCollection {slots : List ImageSlot}
    (h : (intoCollection resolve request slots t).run s = (.ok newText, s')) {c : Char}
    (hc : c ∈ newText) : Written (Shape.collection slots).sizeKeys t c := by
  obtain ⟨found, s₁, hfound, h⟩ := Plan.bind_eq_ok h
  obtain ⟨replacements, s₂, hreplacements, h⟩ := Plan.bind_eq_ok h
  cases h
  refine written_applyAll ?_ hc
  refine Plan.forall_of_mapM ?_ hreplacements
  intro item hitem s b s' hb c hc
  obtain ⟨edits, s₃, hedits, hb⟩ := Plan.bind_eq_ok hb
  cases hb
  refine written_objectReplacement (isSize_of_itemEdits ?_ hedits) hc
  intro m hm
  have hslot := CollectionArguments.slot_mem (parsed_eq_ok hfound) (List.mem_mergeSort.1 hitem) hm
  constructor <;> exact List.mem_flatMap.2 ⟨_, hslot, by simp⟩

/-- The characters of new arguments, in whatever shape they are read. -/
theorem written_intoShape {shape : Shape}
    (h : (intoShape resolve request t shape).run s = (.ok newText, s')) {c : Char}
    (hc : c ∈ newText) : Written shape.sizeKeys t c := by
  cases shape with
  | positional => exact written_intoPositional h hc
  | options keys => exact written_intoOptions h hc
  | collection slots => exact written_intoCollection h hc

end Insert
end PugSize
