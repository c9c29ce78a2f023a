import PugSize.Proofs.Edit.Pieces
import PugSize.Proofs.Text.Boundary

/-!
Replacements made at once. What they come to is told from the left and without an order among them: at each
offset stands the text of the replacement that begins there, and a character is kept unless a replacement
covers it. Replacements that do not overlap come to the same if they are applied from the last to the first.
-/

namespace PugSize
namespace Replacement

/-- What replacements put at an offset. -/
def putAt (rs : List Replacement) (n : Nat) : Text :=
  (rs.filter fun r => r.span.start == n).flatMap Replacement.text

/-- Whether the character at an offset is exchanged. -/
def covers (rs : List Replacement) (n : Nat) : Bool :=
  rs.any fun r => decide (r.span.start ≤ n) && decide (n < r.span.stop)

/-- A text that begins at an offset, with replacements made at once. -/
def exchange (rs : List Replacement) : Nat → Text → Text
  | n, [] => putAt rs n
  | n, c :: cs =>
    putAt rs n ++ (if covers rs n then [] else [c]) ++ exchange rs (n + c.utf8Size) cs

/-- Whether replacements stand side by side on a text: none begins where another one does, and one that
begins before another also ends before it. -/
structure SideBySide (t : Text) (rs : List Replacement) : Prop where
  onText : ∀ r ∈ rs, t.IsBoundary r.span.start ∧ t.IsBoundary r.span.stop ∧ r.span.start ≤ r.span.stop
  distinct : rs.Pairwise fun a b => a.span.start ≠ b.span.start
  apart : ∀ a ∈ rs, ∀ b ∈ rs, a.span.start < b.span.start → a.span.stop ≤ b.span.start

section

variable {rs : List Replacement} {n : Nat}

theorem putAt_of_not_mem (h : ∀ r ∈ rs, r.span.start ≠ n) : putAt rs n = [] := by
  have hnone : rs.filter (fun r => r.span.start == n) = [] := by
    rw [List.filter_eq_nil_iff]
    intro r hr
    simpa using h r hr
  rw [putAt, hnone, List.flatMap_nil]

theorem putAt_of_mem (hdistinct : rs.Pairwise fun a b => a.span.start ≠ b.span.start) {r : Replacement}
    (hr : r ∈ rs) : putAt rs r.span.start = r.text := by
  induction rs with
  | nil => cases hr
  | cons s rs ih =>
      obtain ⟨hs, hlater⟩ := List.pairwise_cons.1 hdistinct
      obtain rfl | hr := List.mem_cons.1 hr
      · have hnone := putAt_of_not_mem fun a ha => (hs a ha).symm
        rw [putAt] at hnone ⊢
        rw [List.filter_cons_of_pos (by simp), List.flatMap_cons, hnone, List.append_nil]
      · have hne := hs r hr
        rw [← ih hlater hr, putAt, putAt, List.filter_cons_of_neg (by simpa using hne)]

theorem covers_eq_true : covers rs n = true ↔ ∃ r ∈ rs, r.span.start ≤ n ∧ n < r.span.stop := by
  simp [covers]

/-- Where nothing begins and nothing is covered, a text is kept. -/
theorem exchange_kept (kept rest : Text)
    (h : ∀ r ∈ rs, r.span.stop ≤ n ∧ r.span.start < n ∨ n + kept.width ≤ r.span.start) :
    exchange rs n (kept ++ rest) = kept ++ exchange rs (n + kept.width) rest := by
  induction kept generalizing n with
  | nil => rfl
  | cons c cs ih =>
      have hc := c.utf8Size_pos
      rw [Text.width_cons] at h ⊢
      have hput : putAt rs n = [] := putAt_of_not_mem fun r hr => by
        have := h r hr
        omega
      have hcover : covers rs n = false := by
        rw [← Bool.not_eq_true, covers_eq_true]
        rintro ⟨r, hr, hstart, hstop⟩
        have := h r hr
        omega
      rw [List.cons_append, exchange, hput, hcover, ih, Nat.add_assoc]
      · rfl
      · intro r hr
        have := h r hr
        omega

/-- What is covered behind the start of a replacement is left out. -/
theorem exchange_covered {r : Replacement} (hr : r ∈ rs) (covered rest : Text)
    (hstart : r.span.start < n) (hstop : n + covered.width = r.span.stop)
    (h : ∀ s ∈ rs, s.span.start < n ∨ n + covered.width ≤ s.span.start) :
    exchange rs n (covered ++ rest) = exchange rs (n + covered.width) rest := by
  induction covered generalizing n with
  | nil => rfl
  | cons c cs ih =>
      have hc := c.utf8Size_pos
      rw [Text.width_cons] at h hstop ⊢
      have hput : putAt rs n = [] := putAt_of_not_mem fun s hs => by
        have := h s hs
        omega
      have hcover : covers rs n = true := covers_eq_true.2 ⟨r, hr, by omega, by omega⟩
      rw [List.cons_append, exchange, hput, hcover, if_pos rfl, ih, Nat.add_assoc]
      · rfl
      · omega
      · omega
      · intro s hs
        have := h s hs
        omega

section

variable {new : Text} (hdistinct : rs.Pairwise fun a b => a.span.start ≠ b.span.start)
include hdistinct

/-- A part that is not empty gives way to its replacement. -/
theorem exchange_part {old : Text} (hmem : ⟨⟨n, n + old.width⟩, new⟩ ∈ rs) (hold : old ≠ [])
    (h : ∀ s ∈ rs, s.span.start ≤ n ∨ n + old.width ≤ s.span.start) (rest : Text) :
    exchange rs n (old ++ rest) = new ++ exchange rs (n + old.width) rest := by
  cases old with
  | nil => exact absurd rfl hold
  | cons c cs =>
      have hc := c.utf8Size_pos
      rw [Text.width_cons] at hmem h ⊢
      have hput : putAt rs n = new := putAt_of_mem hdistinct hmem
      have hcover : covers rs n = true :=
        covers_eq_true.2 ⟨_, hmem, Nat.le_refl _, by dsimp only; omega⟩
      have hskip := @exchange_covered rs (n + c.utf8Size) _ hmem cs rest (by dsimp only; omega)
        (by dsimp only; omega) fun s hs => by
          have := h s hs
          omega
      rw [List.cons_append, exchange, hput, hcover, if_pos rfl, List.append_nil, hskip, Nat.add_assoc]

/-- What is inserted before a character leaves the character. -/
theorem exchange_insertion {c : Char} (hmem : ⟨⟨n, n⟩, new⟩ ∈ rs)
    (h : ∀ s ∈ rs, s.span.stop ≤ n ∨ n < s.span.start) (cs : Text) :
    exchange rs n (c :: cs) = new ++ c :: exchange rs (n + c.utf8Size) cs := by
  have hput : putAt rs n = new := putAt_of_mem hdistinct hmem
  have hcover : covers rs n = false := by
    rw [← Bool.not_eq_true, covers_eq_true]
    rintro ⟨r, hr, hstart, hstop⟩
    have := h r hr
    omega
  rw [exchange, hput, hcover]
  simp

/-- Pieces exchanged at once, behind a gap. What begins before the gap also ends there. -/
theorem exchange_pieces {ps : List Piece} {gap : Text}
    (hmem : ∀ r ∈ Piece.replacements (n + gap.width) ps, r ∈ rs)
    (hothers : ∀ r ∈ rs, r.span.stop ≤ n ∧ r.span.start < n ∨ r ∈ Piece.replacements (n + gap.width) ps)
    (hbefore : (Piece.replacements (n + gap.width) ps).Pairwise Before) :
    exchange rs n (gap ++ Piece.oldText ps) = gap ++ Piece.newText ps := by
  induction ps generalizing n gap with
  | nil =>
      have hnone : ∀ r ∈ rs, r.span.stop ≤ n ∧ r.span.start < n :=
        fun r hr => (hothers r hr).resolve_right List.not_mem_nil
      have hput : putAt rs (n + gap.width) = [] := putAt_of_not_mem fun r hr => by
        have := hnone r hr
        omega
      rw [exchange_kept gap _ fun r hr => .inl (hnone r hr), Piece.oldText, List.flatMap_nil, exchange, hput]
      rfl
  | cons p ps ih =>
      obtain ⟨old, new, next⟩ := p
      rw [Piece.replacements] at hmem hothers hbefore
      dsimp only at hmem hothers hbefore
      obtain ⟨hfirst, hrest⟩ := List.forall_mem_cons.1 hmem
      obtain ⟨hfollows, hlater⟩ := List.pairwise_cons.1 hbefore
      -- Everything else begins before the gap, or behind this piece and what follows it.
      have hcases : ∀ r ∈ rs, r.span.stop ≤ n ∧ r.span.start < n ∨
          r = ⟨⟨n + gap.width, n + gap.width + old.width⟩, new⟩ ∨
          r ∈ Piece.replacements (n + gap.width + old.width + next.width) ps ∧
            n + gap.width + old.width + next.width ≤ r.span.start := by
        intro r hr
        refine (hothers r hr).imp_right fun h => (List.mem_cons.1 h).imp_right fun h => ?_
        exact ⟨h, le_start_pieces h⟩
      rw [exchange_kept gap _ fun r hr => by
        obtain h | rfl | h := hcases r hr
        · exact .inl h
        · exact .inr (Nat.le_refl _)
        · exact .inr (by omega)]
      have hnew : Piece.newText (⟨old, new, next⟩ :: ps) = new ++ (next ++ Piece.newText ps) := by
        rw [Piece.newText, List.flatMap_cons, List.append_assoc, Piece.newText]
      have hold : Piece.oldText (⟨old, new, next⟩ :: ps) = old ++ (next ++ Piece.oldText ps) := by
        rw [Piece.oldText, List.flatMap_cons, List.append_assoc, Piece.oldText]
      rw [hnew, hold, List.append_cancel_left_eq]
      -- Behind this piece the others are exchanged, however much of what follows it has been passed.
      have hbehind {m : Nat} {text : Text} (hm : m + text.width = n + gap.width + old.width + next.width)
          (hstart : n + gap.width < m) (hstop : n + gap.width + old.width ≤ m) :
          exchange rs m (text ++ Piece.oldText ps) = text ++ Piece.newText ps := by
        rw [← hm] at hrest hlater hcases
        refine ih hrest (fun r hr => ?_) hlater
        obtain h | rfl | h := hcases r hr
        · exact .inl ⟨by omega, by omega⟩
        · exact .inl ⟨hstop, hstart⟩
        · exact .inr h.1
      by_cases hempty : old = []
      · subst hempty
        rw [Text.width_nil, Nat.add_zero] at hbehind hcases
        cases next with
        | nil =>
            -- A further piece would begin at the same place.
            cases ps with
            | nil =>
                have hput := putAt_of_mem hdistinct hfirst
                simpa [Piece.oldText, Piece.newText, exchange] using hput
            | cons q ps => exact absurd (hfollows _ List.mem_cons_self) (Nat.lt_irrefl _)
        | cons c cs =>
            have hc := c.utf8Size_pos
            rw [Text.width_cons] at hbehind hcases
            have hside : ∀ s ∈ rs, s.span.stop ≤ n + gap.width ∨ n + gap.width < s.span.start := by
              intro s hs
              obtain h | rfl | h := hcases s hs
              · exact .inl (by omega)
              · exact .inl (Nat.le_refl _)
              · exact .inr (by omega)
            rw [List.nil_append, List.cons_append, exchange_insertion hdistinct hfirst hside,
              hbehind (by omega) (by omega) (by omega)]
            rfl
      · have hpos := Text.width_pos hempty
        have hside : ∀ s ∈ rs, s.span.start ≤ n + gap.width ∨ n + gap.width + old.width ≤ s.span.start := by
          intro s hs
          obtain h | rfl | h := hcases s hs
          · exact .inl (by omega)
          · exact .inl (Nat.le_refl _)
          · exact .inr (by omega)
        rw [exchange_part hdistinct hfirst hempty hside, hbehind rfl (by omega) (Nat.le_refl _)]

end

end

/-- Replacements side by side, from the first to the last, are those of pieces behind a gap. -/
theorem exists_pieces_behind {before rest : Text} {sorted : List Replacement}
    (hsorted : sorted.Pairwise fun a b => a.span.stop ≤ b.span.start)
    (h : ∀ r ∈ sorted, (before ++ rest).IsBoundary r.span.start ∧ (before ++ rest).IsBoundary r.span.stop ∧
      r.span.start ≤ r.span.stop ∧ before.width ≤ r.span.start) :
    ∃ gap ps, rest = gap ++ Piece.oldText ps ∧
      sorted = Piece.replacements (before.width + gap.width) ps := by
  induction sorted generalizing before rest with
  | nil => exact ⟨rest, [], (List.append_nil rest).symm, rfl⟩
  | cons r sorted ih =>
      obtain ⟨hfollows, hlater⟩ := List.pairwise_cons.1 hsorted
      obtain ⟨⟨hstart, hstop, hle, hbefore⟩, hrest⟩ := List.forall_mem_cons.1 h
      obtain ⟨gap, back, rfl, hgap⟩ := hstart.behind hbefore
      rw [← List.append_assoc] at hstop hrest
      obtain ⟨old, back, rfl, hold⟩ := hstop.behind (by rw [Text.width_append]; omega)
      rw [← List.append_assoc] at hrest
      rw [Text.width_append] at hold
      obtain ⟨next, ps, rfl, rfl⟩ := @ih (before ++ gap ++ old) back hlater fun s hs => by
        obtain ⟨hs₁, hs₂, hs₃, -⟩ := hrest s hs
        have := hfollows s hs
        rw [Text.width_append, Text.width_append]
        exact ⟨hs₁, hs₂, hs₃, by omega⟩
      refine ⟨gap, ⟨old, r.text, next⟩ :: ps, by simp [Piece.oldText], ?_⟩
      obtain ⟨⟨start, stop⟩, text⟩ := r
      dsimp only at hgap hold
      subst hgap hold
      rw [Piece.replacements, Text.width_append, Text.width_append]

/-- Applying replacements that stand side by side, from the last to the first, makes them all at once, in
whatever order they are given. -/
theorem applyAll_atOnce {t : Text} {rs : List Replacement} (h : SideBySide t rs) :
    applyAll t rs = exchange rs 0 t ∧ ∀ rs', rs'.Perm rs → applyAll t rs' = applyAll t rs := by
  let sorted := rs.mergeSort fun a b => a.span.start ≤ b.span.start
  have hperm : sorted.Perm rs := List.mergeSort_perm _ _
  have hle : sorted.Pairwise fun a b => a.span.start ≤ b.span.start := by
    have := @List.pairwise_mergeSort _ (fun a b : Replacement => decide (a.span.start ≤ b.span.start))
      (by simpa using fun a b c => Nat.le_trans) (by simpa using fun a b => Nat.le_total _ _) rs
    simpa using this
  have hne : sorted.Pairwise fun a b => a.span.start ≠ b.span.start :=
    (hperm.pairwise_iff fun hab => hab.symm).2 h.distinct
  have hbefore : sorted.Pairwise Before := (hle.and hne).imp fun hab => Nat.lt_of_le_of_ne hab.1 hab.2
  have hapart : sorted.Pairwise fun a b => a.span.stop ≤ b.span.start := by
    refine hbefore.imp_of_mem fun ha hb hab => ?_
    exact h.apart _ (hperm.subset ha) _ (hperm.subset hb) hab
  obtain ⟨gap, ps, ht, hps⟩ := @exists_pieces_behind [] t sorted hapart fun r hr => by
    obtain ⟨hstart, hstop, hrle⟩ := h.onText r (hperm.subset hr)
    exact ⟨hstart, hstop, hrle, Nat.zero_le _⟩
  rw [Text.width_nil, Nat.zero_add] at hps
  have happly : ∀ rs', rs'.Perm rs → applyAll t rs' = gap ++ Piece.newText ps := by
    intro rs' hrs'
    rw [ht]
    exact applyAll_pieces (hps ▸ hrs'.trans hperm.symm) (hps ▸ hbefore)
  have hexchange : exchange rs 0 t = gap ++ Piece.newText ps := by
    rw [ht]
    have hzero : 0 + gap.width = gap.width := Nat.zero_add _
    apply exchange_pieces h.distinct
    · rw [hzero, ← hps]
      exact fun r hr => hperm.subset hr
    · rw [hzero, ← hps]
      exact fun r hr => .inr (hperm.symm.subset hr)
    · rw [hzero, ← hps]
      exact hbefore
  exact ⟨(happly rs (.refl _)).trans hexchange.symm,
    fun rs' hrs' => (happly rs' hrs').trans (happly rs (.refl _)).symm⟩

/-- An insertion behind a character that is exchanged, one at the front, and characters of two bytes. -/
theorem applyAll_atOnce_insertions :
    let t : Text := "aéb".toList
    let rs : List Replacement := [⟨⟨3, 3⟩, "Z".toList⟩, ⟨⟨1, 3⟩, "ßß".toList⟩, ⟨⟨0, 0⟩, ">".toList⟩]
    SideBySide t rs ∧ exchange rs 0 t = ">aßßZb".toList ∧ applyAll t rs = exchange rs 0 t ∧
      applyAll t rs.reverse = applyAll t rs := by
  intro t rs
  have h : SideBySide t rs := ⟨by decide, by decide, by decide⟩
  obtain ⟨hexchange, hperm⟩ := applyAll_atOnce h
  exact ⟨h, by decide, hexchange, hperm _ (List.reverse_perm rs)⟩

end Replacement
end PugSize
