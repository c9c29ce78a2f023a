import PugSize.Proofs.Edit.ObjectRead
import PugSize.Proofs.Script.PropertyValue

/-!
The text of the value of a property. The value is the end of the core of its row, so its text is told from the
core, wherever the row stands.
-/

namespace PugSize

open Script

namespace ObjectText

/-- The text of the value that a core is read with. -/
def valueText? (core : List Node) : Option Text :=
  (property? (placeRow 0 core)).map fun p => (textOf core).slice p.value.span

theorem valueText?_eq {core : List Node} (hcore : Solid core) {p : Property Expr} {front back t : Text}
    (hproperty : property? (placeRow front.width core) = some p) (ht : t = front ++ textOf core ++ back) :
    valueText? core = some (t.slice p.value.span) := by
  have hshift := placeRow_shift front.width 0 core
  rw [Nat.zero_add] at hshift
  rw [hshift, property?_shift] at hproperty
  obtain ⟨q, hq, rfl⟩ := Option.map_eq_some_iff.1 hproperty
  obtain ⟨before, after, rfl, -, hspan, -⟩ := hcore.exists_value hq
  have hspan' : (Property.shift front.width q).value.span =
      ⟨(front ++ textOf before).width, (front ++ textOf before).width + (textOf after).width⟩ := by
    have hshifted : (Property.shift front.width q).value.span = q.value.span.shift front.width :=
      Expr.span_shift _ _
    rw [hshifted, hspan, Span.shift, Text.width_append, widthOf_append, ← widthOf, ← widthOf]
    rw [Span.mk.injEq]
    dsimp only
    omega
  have hinside := Text.slice_middle (textOf before) (textOf after) []
  have hall := Text.slice_middle (front ++ textOf before) (textOf after) back
  rw [valueText?, hq, Option.map_some, hspan, hspan', ht, textOf_append, widthOf_append, Nat.zero_add,
    ← List.append_assoc, hall, widthOf, widthOf]
  rw [List.append_nil] at hinside
  rw [Nat.zero_add, hinside]

theorem takeWhile_isGap {gap ns : List Node} (hgap : Gap gap)
    (hns : ∀ n, ns.head? = some n → isGap n = false) : (gap ++ ns).takeWhile isGap = gap := by
  rw [List.takeWhile_append_of_pos hgap]
  cases ns with
  | nil => exact List.append_nil gap
  | cons n ns => rw [List.takeWhile_cons_of_neg (by simp [hns n rfl]), List.append_nil]

/-- A core is parted into a key and a value in one way. -/
theorem Keyed.unique {key : Text} {core part value part' value' : List Node}
    (h : Keyed key core part value) (h' : Keyed key core part' value') : part = part' ∧ value = value' := by
  have heq := h.core.symm.trans h'.core
  obtain ⟨-, hpart, n, hn, hnGap⟩ := h
  obtain ⟨-, hpart', m, hm, hmGap⟩ := h'
  have hvalue : ∀ x, value.head? = some x → isGap x = false := fun x hx => by
    rwa [← Option.some.inj (hn.symm.trans hx)]
  have hvalue' : ∀ x, value'.head? = some x → isGap x = false := fun x hx => by
    rwa [← Option.some.inj (hm.symm.trans hx)]
  obtain ⟨plain, -, hgap, hbehind⟩ := hpart
  obtain ⟨plain', -, hgap', hbehind'⟩ := hpart'
  rename_i name gap behind name' gap' behind'
  have hcolon (ns : List Node) : ∀ x, (colonNode :: ns).head? = some x → isGap x = false := by
    intro x hx
    rw [← Option.some.inj hx]
    rfl
  simp only [List.cons_append, List.append_assoc, List.cons.injEq] at heq
  obtain ⟨hname, htail⟩ := heq
  have hgaps := congrArg (List.takeWhile isGap) htail
  rw [takeWhile_isGap hgap (hcolon _), takeWhile_isGap hgap' (hcolon _)] at hgaps
  subst hgaps
  have hrest := (List.cons.inj (List.append_cancel_left htail)).2
  have hbehinds := congrArg (List.takeWhile isGap) hrest
  rw [takeWhile_isGap hbehind hvalue, takeWhile_isGap hbehind' hvalue'] at hbehinds
  subst hbehinds
  rw [hname]
  exact ⟨rfl, List.append_cancel_left hrest⟩

/-- What stands behind a key and its colon is white space and comments before the value. -/
theorem Keyed.parts {key : Text} {core part value : List Node} (h : Keyed key core part value)
    (hcore : Solid core) : ∃ blank solid, value = blank ++ solid ∧ Blank blank ∧ Solid solid := by
  obtain ⟨n, hn, -⟩ := h.value
  obtain ⟨last, hlast, htrivia⟩ := hcore.last
  rw [h.core, List.getLast?_append_of_ne_nil _ (by rintro rfl; cases hn)] at hlast
  have huncut : Uncut value := fun m hm =>
    hcore.uncut m (by rw [h.core]; exact List.mem_append_right _ hm)
  obtain hblank | ⟨r, rfl⟩ := exists_row huncut
  · rw [hblank last (List.mem_of_getLast? hlast)] at htrivia
    cases htrivia
  · have htrail : r.trail = [] := by
      apply Classical.byContradiction
      intro hne
      rw [Row.nodes, List.getLast?_append_of_ne_nil _ hne] at hlast
      rw [r.blank_trail last (List.mem_of_getLast? hlast)] at htrivia
      cases htrivia
    exact ⟨r.lead, r.core, by rw [Row.nodes, htrail, List.append_nil], r.blank_lead, r.solid⟩

/-- The value of a row that is written with a key is read behind the colon. -/
theorem Keyed.valueText? {key : Text} (hkey : IsKey key) {core part blank solid : List Node}
    (h : Keyed key core part (blank ++ solid)) (hblank : Blank blank) (hsolid : Solid solid) {text : Text}
    (htext : valueText? core = some text) : text = textOf solid := by
  obtain ⟨p, hp, rfl⟩ := Option.map_eq_some_iff.1 htext
  obtain ⟨span, hread⟩ := property?_keyPart hkey.label h.part (blank ++ solid) 0
  rw [← h.core, hp] at hread
  obtain ⟨v, hv, rfl⟩ := Option.map_eq_some_iff.1 hread.symm
  rw [placeRow_append, placeRow_blank hblank, List.nil_append] at hv
  obtain ⟨t, ts, htrees, hstart, hstop⟩ := hsolid.placeRow_eq (0 + widthOf part + widthOf blank)
  rw [htrees] at hv
  have hslice := Text.slice_middle (textOf (part ++ blank)) (textOf solid) []
  rw [List.append_nil, ← textOf_append, List.append_assoc, ← h.core, ← widthOf, ← widthOf, widthOf_append]
    at hslice
  rw [segmentExpr?_span hv, hstart, hstop, Nat.zero_add, hslice]

end ObjectText

end PugSize
