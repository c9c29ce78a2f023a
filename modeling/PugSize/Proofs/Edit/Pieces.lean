import PugSize.Edit.Replacement

/-!
Replacements of parts of a text that do not overlap. Whatever the order in which they are given, each
part is exchanged and what stands between the parts is kept.
-/

namespace PugSize

/-- A part of a text that is exchanged, and what stands between it and the next one. -/
structure Piece where
  old : Text
  new : Text
  next : Text

namespace Piece

def oldText (ps : List Piece) : Text := ps.flatMap fun p => p.old ++ p.next

def newText (ps : List Piece) : Text := ps.flatMap fun p => p.new ++ p.next

/-- The replacements for pieces the first of which stands at an offset. -/
def replacements (offset : Nat) : List Piece → List Replacement
  | [] => []
  | p :: ps =>
    ⟨⟨offset, offset + p.old.width⟩, p.new⟩ ::
      replacements (offset + p.old.width + p.next.width) ps

end Piece

section

variable {α : Type} {start : α → Nat}

theorem eq_of_start_eq {as : List α} (h : as.Pairwise fun a b => start a < start b) {a b : α}
    (ha : a ∈ as) (hb : b ∈ as) (heq : start a = start b) : a = b := by
  induction h with
  | nil => cases ha
  | @cons c as hc _ ih =>
      obtain rfl | ha' := List.mem_cons.1 ha
      · obtain rfl | hb' := List.mem_cons.1 hb
        · rfl
        · exact absurd heq (Nat.ne_of_lt (hc b hb'))
      · obtain rfl | hb' := List.mem_cons.1 hb
        · exact absurd heq.symm (Nat.ne_of_lt (hc a ha'))
        · exact ih ha' hb'

/-- What starts at different places has one descending order. -/
theorem mergeSort_descending {as sorted : List α} (hperm : as.Perm sorted)
    (hsorted : sorted.Pairwise fun a b => start a < start b) :
    as.mergeSort (fun a b => start b ≤ start a) = sorted.reverse := by
  have htrans : ∀ a b c : α, decide (start b ≤ start a) = true → decide (start c ≤ start b) = true →
      decide (start c ≤ start a) = true := by
    intro a b c hab hbc
    simp only [decide_eq_true_eq] at hab hbc ⊢
    omega
  have htotal : ∀ a b : α, (decide (start b ≤ start a) || decide (start a ≤ start b)) = true := by
    intro a b
    simp only [Bool.or_eq_true, decide_eq_true_eq]
    omega
  have hreverse : sorted.reverse.Pairwise fun a b => decide (start b ≤ start a) = true := by
    rw [List.pairwise_reverse]
    refine hsorted.imp ?_
    intro a b hab
    simp only [decide_eq_true_eq]
    exact Nat.le_of_lt hab
  have hsame : (as.mergeSort fun a b => start b ≤ start a).Perm sorted.reverse :=
    (List.mergeSort_perm _ _).trans (hperm.trans (List.reverse_perm sorted).symm)
  refine List.Perm.eq_of_pairwise ?_ (List.pairwise_mergeSort htrans htotal as) hreverse hsame
  intro a b ha hb hab hba
  simp only [decide_eq_true_eq] at hab hba
  exact eq_of_start_eq hsorted (List.mem_reverse.1 (hsame.subset ha)) (List.mem_reverse.1 hb)
    (Nat.le_antisymm hba hab)

end

namespace Replacement

/-- Whether one replacement begins before another. -/
def Before (a b : Replacement) : Prop := a.span.start < b.span.start

theorem foldl_pieces (front : Text) (ps : List Piece) :
    (Piece.replacements front.width ps).reverse.foldl apply (front ++ Piece.oldText ps) =
      front ++ Piece.newText ps := by
  induction ps generalizing front with
  | nil => rfl
  | cons p ps ih =>
      have hfront : front ++ Piece.oldText (p :: ps) =
          (front ++ p.old ++ p.next) ++ Piece.oldText ps := by
        simp [Piece.oldText, List.append_assoc]
      have hwidth : front.width + p.old.width + p.next.width =
          Text.width (front ++ p.old ++ p.next) := by
        rw [Text.width_append, Text.width_append]
      rw [Piece.replacements, List.reverse_cons, List.foldl_append, hfront, hwidth, ih,
        List.foldl_cons, List.foldl_nil, apply, List.append_assoc, List.append_assoc,
        ← List.append_assoc, Text.splice_middle]
      simp [Piece.newText, List.append_assoc]

theorem le_start_pieces {offset : Nat} {ps : List Piece} {r : Replacement}
    (h : r ∈ Piece.replacements offset ps) : offset ≤ r.span.start := by
  induction ps generalizing offset with
  | nil => cases h
  | cons p ps ih =>
      obtain rfl | h := List.mem_cons.1 h
      · exact Nat.le_refl _
      · have := ih h
        omega

/-- Pieces that are not empty begin one before the other. -/
theorem pairwise_pieces {ps : List Piece} (h : ∀ p ∈ ps, p.old ≠ []) (offset : Nat) :
    (Piece.replacements offset ps).Pairwise Before := by
  induction ps generalizing offset with
  | nil => exact .nil
  | cons p ps ih =>
      obtain ⟨hp, hps⟩ := List.forall_mem_cons.1 h
      refine .cons (fun r hr => ?_) (ih hps _)
      have hstart := le_start_pieces hr
      have hwidth := Text.width_pos hp
      show offset < r.span.start
      omega

theorem applyAll_pieces {front : Text} {ps : List Piece} {rs : List Replacement}
    (hperm : rs.Perm (Piece.replacements front.width ps))
    (hps : (Piece.replacements front.width ps).Pairwise Before) :
    applyAll (front ++ Piece.oldText ps) rs = front ++ Piece.newText ps := by
  rw [applyAll, descending, mergeSort_descending hperm hps, foldl_pieces]

end Replacement
end PugSize
