import PugSize.Proofs.Edit.Pieces
import PugSize.Proofs.Edit.SlotTexts

/-!
Texts parted by spans that lie one behind the other. Such a text is the parts woven into the gaps between
them, and replacing every part, from the last to the first, weaves the new parts into the same gaps.
-/

namespace PugSize

/-- Whether spans lie one behind the other in a text that begins at an offset, each on a part of it that is
not empty. -/
inductive Text.Parted : Nat → Text → List Span → Prop
  | nil (offset : Nat) (t : Text) : Parted offset t []
  | cons {offset : Nat} (gap part : Text) {rest : Text} {spans : List Span} (hpart : part ≠ [])
      (h : Parted (offset + gap.width + part.width) rest spans) :
      Parted offset (gap ++ part ++ rest)
        (⟨offset + gap.width, offset + gap.width + part.width⟩ :: spans)

namespace Text

namespace Parted

variable {offset : Nat} {t : Text} {spans : List Span}

theorem behind {front : Text} (h : Parted (offset + front.width) t spans) :
    Parted offset (front ++ t) spans := by
  cases h with
  | nil => exact .nil _ _
  | @cons _ gap part rest spans hpart h =>
      have hparts : front ++ (gap ++ part ++ rest) = (front ++ gap) ++ part ++ rest := by
        simp only [List.append_assoc]
      rw [hparts, Nat.add_assoc offset, ← width_append]
      refine .cons (front ++ gap) part hpart ?_
      rwa [width_append, ← Nat.add_assoc]

/-- Parts that are left out belong to the gaps. -/
theorem sublist {spans' : List Span} (h : Parted offset t spans) (hsub : spans'.Sublist spans) :
    Parted offset t spans' := by
  induction h generalizing spans' with
  | nil offset t =>
      rw [List.sublist_nil.1 hsub]
      exact .nil _ _
  | @cons offset gap part rest spans hpart h ih =>
      cases hsub with
      | cons _ hsub =>
          have hgap : Parted (offset + width (gap ++ part)) rest spans' := by
            rw [width_append, ← Nat.add_assoc]
            exact ih hsub
          exact hgap.behind
      | cons_cons _ hsub => exact .cons gap part hpart (ih hsub)

/-- A parted text is its parts woven into gaps. -/
theorem exists_gaps (h : Parted offset t spans) :
    ∃ gaps texts, gaps.length = texts.length + 1 ∧ t = weave gaps texts ∧
      spans = weaveSpans offset gaps texts ∧ ∀ part ∈ texts, part ≠ [] := by
  induction h with
  | nil offset t => exact ⟨[t], [], rfl, by simp [weave], rfl, nofun⟩
  | cons gap part hpart h ih =>
      obtain ⟨gaps, texts, hlength, rfl, rfl, hne⟩ := ih
      refine ⟨gap :: gaps, part :: texts, by simp [hlength], rfl, rfl, ?_⟩
      exact List.forall_mem_cons.2 ⟨hpart, hne⟩

theorem le_start (h : Parted offset t spans) : ∀ s ∈ spans, offset ≤ s.start := by
  induction h with
  | nil => exact nofun
  | cons gap part hpart h ih =>
      refine List.forall_mem_cons.2 ⟨Nat.le_add_right _ _, fun s hs => ?_⟩
      have := ih s hs
      omega

/-- The spans do not overlap, and they ascend. -/
theorem pairwise (h : Parted offset t spans) :
    spans.Pairwise fun a b => a.start < a.stop ∧ a.stop ≤ b.start := by
  induction h with
  | nil => exact .nil
  | cons gap part hpart h ih =>
      refine .cons (fun s hs => ⟨?_, h.le_start s hs⟩) ih
      have := width_pos hpart
      dsimp only
      omega

end Parted

theorem length_weaveSpans (offset : Nat) {gaps texts : List Text} (h : texts.length ≤ gaps.length) :
    (weaveSpans offset gaps texts).length = texts.length := by
  induction texts generalizing offset gaps with
  | nil => cases gaps <;> rfl
  | cons t ts ih =>
      cases gaps with
      | nil => cases h
      | cons gap gaps => rw [weaveSpans, List.length_cons, ih _ (Nat.le_of_succ_le_succ h), List.length_cons]

end Text

namespace Replacement

/-- Parts woven into gaps are pieces that can be exchanged. -/
theorem exists_pieces (offset : Nat) (gap : Text) {gaps texts news : List Text}
    (hgaps : gaps.length = texts.length) (hnews : news.length = texts.length)
    (hne : ∀ part ∈ texts, part ≠ []) :
    ∃ ps, Text.weave (gap :: gaps) texts = gap ++ Piece.oldText ps ∧
      Text.weave (gap :: gaps) news = gap ++ Piece.newText ps ∧ (∀ p ∈ ps, p.old ≠ []) ∧
      Piece.replacements (offset + gap.width) ps =
        List.zipWith Replacement.mk (Text.weaveSpans offset (gap :: gaps) texts) news := by
  induction texts generalizing offset gap gaps news with
  | nil =>
      obtain rfl := List.eq_nil_of_length_eq_zero hgaps
      obtain rfl := List.eq_nil_of_length_eq_zero hnews
      exact ⟨[], by simp [Text.weave, Piece.oldText], by simp [Text.weave, Piece.newText], nofun, rfl⟩
  | cons part texts ih =>
      obtain ⟨next, gaps, rfl⟩ := List.exists_cons_of_length_eq_add_one hgaps
      obtain ⟨new, news, rfl⟩ := List.exists_cons_of_length_eq_add_one hnews
      obtain ⟨hpart, hne⟩ := List.forall_mem_cons.1 hne
      obtain ⟨ps, hold, hnew, hps, hspans⟩ := ih (offset + gap.width + part.width) next
        (Nat.succ.inj hgaps) (Nat.succ.inj hnews) hne
      refine ⟨⟨part, new, next⟩ :: ps, ?_, ?_, List.forall_mem_cons.2 ⟨hpart, hps⟩, ?_⟩
      · rw [Text.weave, hold]
        simp [Piece.oldText]
      · rw [Text.weave, hnew]
        simp [Piece.newText]
      · rw [Piece.replacements, hspans, Text.weaveSpans]
        rfl

/-- Replacing every part weaves the new parts into the gaps, in whatever order the replacements are given. -/
theorem applyAll_weave {gaps texts news : List Text} {rs : List Replacement}
    (hgaps : gaps.length = texts.length + 1) (hnews : news.length = texts.length)
    (hne : ∀ part ∈ texts, part ≠ [])
    (hrs : rs.Perm (List.zipWith Replacement.mk (Text.weaveSpans 0 gaps texts) news)) :
    applyAll (Text.weave gaps texts) rs = Text.weave gaps news := by
  obtain ⟨gap, gaps, rfl⟩ := List.exists_cons_of_length_eq_add_one hgaps
  obtain ⟨ps, hold, hnew, hps, hspans⟩ := exists_pieces 0 gap (Nat.succ.inj hgaps) hnews hne
  rw [Nat.zero_add] at hspans
  rw [hold, hnew, applyAll_pieces (hspans ▸ hrs) (pairwise_pieces hps _)]

end Replacement

end PugSize
