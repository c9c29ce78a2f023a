import PugSize.Proofs.Edit.ObjectRead
import PugSize.Proofs.Script.Comments

/-!
Values that are found whole. The search for a value ends at a comment, also inside brackets; where no
comment stands inside the brackets of a value, what is found of it can be exchanged.
-/

namespace PugSize

open Script CharClass

namespace ObjectText

/-- Nodes without a comment inside their brackets, in view of the search for the end of a value. -/
def Whole (ns : List Node) : Prop :=
  ∀ shape inside, .group shape inside ∈ ns → ∀ x ∈ marksOf 2 inside, x.2 ≠ .comment

theorem whole_of_scan {ns : List Node} (h : Legible (lexemesOf ns) [])
    (hinside : commentInside 0 (scan (textOf ns)).1 = false) : Whole ns := by
  obtain ⟨-, -, hlexemes⟩ := scan_of_legible h 0
  rw [← commentInside_filter, textOf, hlexemes, commentInside_filter] at hinside
  intro shape inside hmem x hx hk
  obtain ⟨l, hl, hkind⟩ := exists_comment inside 2 x hx hk
  have hcomment := not_comment_of_groups ns hinside hmem l hl
  obtain hkind | hkind := hkind <;> simp [Lexeme.isComment, hkind] at hcomment

/-- The search for the end of a whole value stops outside brackets. -/
theorem Whole.stops {value trail before behind : List Node} (h : Whole value) (htrail : Blank trail)
    (hcut : value ++ trail = before ++ behind) : ¬ StopsInside behind := by
  rintro ⟨shape, inside, later, rfl, x, hx, hk⟩
  have hmem : Node.group shape inside ∈ value ++ trail := by rw [hcut]; simp
  obtain hmem | hmem := List.mem_append.1 hmem
  · exact h shape inside hmem x hx hk
  · have := htrail _ hmem
    cases this

/-- A value is whole if no comment stands inside the brackets of its text. -/
theorem Keyed.whole {key : Text} (hkey : IsKey key) {core part value : List Node} (h : Keyed key core part value)
    (hcore : Solid core) {after : Text} (hlegible : Legible (lexemesOf core) after) {p : Property Expr}
    {front back t : Text} (hproperty : property? (placeRow front.width core) = some p)
    (ht : t = front ++ textOf core ++ back)
    (hinside : commentInside 0 (scan (t.slice p.value.span)).1 = false) : Whole value := by
  have huncut : Uncut value := fun n hn =>
    hcore.uncut n (by rw [h.core]; exact List.mem_append_right _ hn)
  obtain hblank | ⟨r, rfl⟩ := exists_row huncut
  · intro shape inside hmem
    have := hblank _ hmem
    cases this
  · obtain ⟨-, hread⟩ := keyed_property hproperty hkey h
    obtain ⟨tree, trees, htrees, hspan⟩ := r.trees_eq (front.width + widthOf part)
    rw [r.placeRow_nodes, htrees] at hread
    have htext : t = (front ++ textOf (part ++ r.lead)) ++ textOf r.core ++ (textOf r.trail ++ back) := by
      rw [ht, h.core, Row.nodes]
      simp
    have hslice := Text.slice_middle (front ++ textOf (part ++ r.lead)) (textOf r.core) (textOf r.trail ++ back)
    have hwidth : Text.width (front ++ textOf (part ++ r.lead)) =
        front.width + widthOf part + widthOf r.lead := by
      rw [Text.width_append, ← widthOf, widthOf_append, Nat.add_assoc]
    rw [← htext, hwidth, ← widthOf] at hslice
    rw [segmentExpr?_span hread, hspan, Row.span, hslice] at hinside
    rw [h.core, Row.nodes, lexemesOf_append, lexemesOf_append, lexemesOf_append] at hlegible
    have hrow := (legible_append.1 (legible_append.1 (legible_append.1 hlegible).2).1).2
    have hend : Legible (lexemesOf r.core) [] :=
      hrow.swap_token Apart.nil (by simp) fun l hl => r.solid.last_token hl
    intro shape inside hmem
    refine whole_of_scan hend hinside shape inside ?_
    simp only [Row.nodes, List.mem_append] at hmem
    obtain (hmem | hmem) | hmem := hmem
    · have := r.blank_lead _ hmem
      cases this
    · exact hmem
    · have := r.blank_trail _ hmem
      cases this

theorem opening_marks (shape : Bracket) (inside : List Node) :
    ∃ c, nodeMarks 1 (.group shape inside) =
        (c, .code 1) :: (marksOf 2 inside ++ shape.closing.text.zip [.code 2]) ∧
      isOpening c = true := by
  cases shape <;> exact ⟨_, rfl, rfl⟩

/-- A value that is found only up to a place inside its brackets stands for something. -/
theorem not_vacant_inside {ns before behind : List Node} (hcut : ns = before ++ behind)
    (hbefore : ∀ x ∈ marksOf 1 before, endsValue x = false) (hinside : StopsInside behind) :
    isVacant (passed ns) = false := by
  obtain ⟨shape, inside, later, rfl, -⟩ := hinside
  obtain ⟨c, hmarks, hopening⟩ := opening_marks shape inside
  have hc : c = '(' ∨ c = '[' ∨ c = '{' := by
    simpa [isOpening, or_assoc] using hopening
  have hends : endsValue (c, .code 1) = false := by
    obtain rfl | rfl | rfl := hc <;> rfl
  have hmem : c ∈ passed ns := by
    rw [hcut, passed, marksOf_append, List.takeWhile_append_of_pos fun x hx => by simp [hbefore x hx],
      marksOf, hmarks, List.cons_append, List.takeWhile_cons_of_pos (by simp [hends])]
    simp
  obtain rfl | rfl | rfl := hc
  · exact not_vacant_of_mem hmem (by decide) (by decide)
  · exact not_vacant_of_mem hmem (by decide) (by decide)
  · exact not_vacant_of_mem hmem (by decide) (by decide)

end ObjectText

end PugSize
