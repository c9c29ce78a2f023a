import PugSize.Text.Basic

/-!
Offsets between the characters of a text. A text can be cut at these and at no others, and cutting it at
one of them leaves the others where they are.
-/

namespace PugSize.Text

/-- Whether an offset falls between two characters of a text, or on one of its ends. -/
def IsBoundary (t : Text) (n : Nat) : Prop := ∃ front back, t = front ++ back ∧ front.width = n

theorem takeBytes_append_dropBytes (n : Nat) (t : Text) : takeBytes n t ++ dropBytes n t = t := by
  induction t generalizing n with
  | nil => rfl
  | cons c cs ih =>
      rw [takeBytes, dropBytes]
      split
      · rw [List.cons_append, ih]
      · rfl

theorem isBoundary_iff {t : Text} {n : Nat} : IsBoundary t n ↔ (takeBytes n t).width = n := by
  constructor
  · rintro ⟨front, back, rfl, rfl⟩
    rw [takeBytes_width]
  · exact fun h => ⟨_, _, (takeBytes_append_dropBytes n t).symm, h⟩

instance (t : Text) (n : Nat) : Decidable (IsBoundary t n) := decidable_of_iff _ isBoundary_iff.symm

theorem eq_nil_of_width {t : Text} (h : t.width = 0) : t = [] := by
  cases t with
  | nil => rfl
  | cons c cs => exact absurd h (Nat.ne_of_gt (width_pos (List.cons_ne_nil c cs)))

/-- A boundary behind a front of the text cuts what follows the front. -/
theorem IsBoundary.behind {front rest : Text} {n : Nat} (h : IsBoundary (front ++ rest) n)
    (hn : front.width ≤ n) : ∃ gap back, rest = gap ++ back ∧ front.width + gap.width = n := by
  obtain ⟨before, back, hsplit, rfl⟩ := h
  obtain ⟨gap, rfl, hrest⟩ | ⟨more, rfl, hback⟩ := List.append_eq_append_iff.1 hsplit
  · exact ⟨gap, back, hrest, (width_append front gap).symm⟩
  · rw [width_append] at hn
    obtain rfl : more = [] := eq_nil_of_width (by omega)
    exact ⟨[], rest, rfl, by simp⟩

end PugSize.Text
