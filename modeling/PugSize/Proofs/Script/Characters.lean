import PugSize.Script.Lexeme
import PugSize.Edit.CharClass

/-!
Which characters go on with a word or a number and which do not. No character of white space, no
bracket and no quote does.
-/

namespace PugSize.Script

/-- Whether a character ends every identifier and every number before it. -/
def isSeparator (c : Char) : Bool := !isIdentContinue c && !(c ∈ ['.', '+', '-', '*'])

/-- Whether a character is of no concern to brackets, literals, comments and segments. -/
def isNeutral (c : Char) : Bool :=
  !(CharClass.isQuote c || CharClass.isOpening c || CharClass.isClosing c || isSkipped c ||
    c ∈ ['/', ',', ':', '\n'])

theorem ofNat_toNat {c : Char} {n : Nat} (h : c.toNat = n) : c = Char.ofNat n := by
  rw [← h, Char.ofNat_toNat]

theorem isIdentContinue_of_isIdentStart {c : Char} (h : isIdentStart c = true) :
    isIdentContinue c = true := by
  simp only [isIdentStart, Bool.or_eq_true, beq_iff_eq] at h
  obtain (h | rfl) | rfl := h
  · have hcontinue : Text.isIdContinue c = true := by
      unfold Text.isIdStart at h
      unfold Text.isIdContinue
      split at h
      · rename_i hascii
        rw [if_pos hascii, Char.isAlphanum, h]
        rfl
      · rename_i hascii
        rw [if_neg hascii, h]
        rfl
    simp [isIdentContinue, hcontinue]
  · decide
  · decide

theorem isIdentContinue_of_isAlphanum {c : Char} (h : c.isAlphanum = true) :
    isIdentContinue c = true := by
  have hascii : c.toNat < 128 := by
    delta Char.isAlphanum Char.isAlpha Char.isUpper Char.isLower Char.isDigit at h
    simp only [Bool.or_eq_true, Bool.and_eq_true, decide_eq_true_eq, ge_iff_le, UInt32.le_iff_toNat_le] at h
    change c.val.toNat < 128
    obtain ((h | h) | h) := h
    · exact Nat.lt_of_le_of_lt h.2 (by decide)
    · exact Nat.lt_of_le_of_lt h.2 (by decide)
    · exact Nat.lt_of_le_of_lt h.2 (by decide)
  simp [isIdentContinue, Text.isIdContinue, hascii, h]

theorem isIdentContinue_of_isDigitMark {c : Char} (h : isDigitMark c = true) :
    isIdentContinue c = true := by
  simp only [isDigitMark, Bool.or_eq_true, beq_iff_eq] at h
  obtain h | rfl := h
  · exact isIdentContinue_of_isAlphanum (by simp [Char.isAlphanum, h])
  · decide

theorem isIdentContinue_of_isHexMark {c : Char} (h : (isHexDigit c || c == '_') = true) :
    isIdentContinue c = true := by
  simp only [isHexDigit, Bool.or_eq_true, Bool.and_eq_true, decide_eq_true_eq, beq_iff_eq] at h
  obtain ((h | ⟨h, h'⟩) | ⟨h, h'⟩) | rfl := h
  · exact isIdentContinue_of_isAlphanum (by simp [Char.isAlphanum, h])
  · have hlower : c.isLower = true := by
      delta Char.isLower
      simp only [Bool.and_eq_true, decide_eq_true_eq, ge_iff_le]
      exact ⟨h, Nat.le_trans h' (by decide)⟩
    have halpha : c.isAlpha = true := (Bool.or_eq_true _ _).mpr (.inr hlower)
    exact isIdentContinue_of_isAlphanum (by simp [Char.isAlphanum, halpha])
  · have hupper : c.isUpper = true := by
      delta Char.isUpper
      simp only [decide_eq_true_eq, ge_iff_le]
      exact ⟨h, Nat.le_trans h' (by decide)⟩
    have halpha : c.isAlpha = true := (Bool.or_eq_true _ _).mpr (.inl hupper)
    exact isIdentContinue_of_isAlphanum (by simp [Char.isAlphanum, halpha])
  · decide

/-- White space and the byte-order mark continue nothing. -/
theorem isSeparator_of_isSkipped {c : Char} (h : isSkipped c = true) : isSeparator c = true := by
  simp only [isSkipped, Text.isBlank, Bool.or_eq_true, Bool.and_eq_true, decide_eq_true_eq,
    beq_iff_eq] at h
  have hrange (lo hi : Nat) (hc : lo ≤ c.toNat ∧ c.toNat ≤ hi)
      (hall : ∀ n, n < hi + 1 - lo → isSeparator (Char.ofNat (lo + n)) = true) :
      isSeparator c = true := by
    have := hall (c.toNat - lo) (by omega)
    rwa [Nat.add_sub_cancel' hc.1, Char.ofNat_toNat] at this
  obtain ((((((((((h | h) | h) | h) | h) | h) | h) | h) | h) | h) | h) | rfl := h
  · exact hrange 9 13 h (by decide +kernel)
  · rw [ofNat_toNat h]; decide +kernel
  · rw [ofNat_toNat h]; decide +kernel
  · rw [ofNat_toNat h]; decide +kernel
  · rw [ofNat_toNat h]; decide +kernel
  · exact hrange 0x2000 0x200A h (by decide +kernel)
  · rw [ofNat_toNat h]; decide +kernel
  · rw [ofNat_toNat h]; decide +kernel
  · rw [ofNat_toNat h]; decide +kernel
  · rw [ofNat_toNat h]; decide +kernel
  · rw [ofNat_toNat h]; decide +kernel
  · decide +kernel

theorem isIdentContinue_of_isSeparator {c : Char} (h : isSeparator c = true) :
    isIdentContinue c = false := by
  simp only [isSeparator, Bool.and_eq_true, Bool.not_eq_true'] at h
  exact h.1

theorem isNeutral_of_isIdentContinue {c : Char} (h : isIdentContinue c = true) :
    isNeutral c = true := by
  have hskipped : isSkipped c = false := by
    apply Bool.eq_false_iff.2
    intro hs
    rw [isIdentContinue_of_isSeparator (isSeparator_of_isSkipped hs)] at h
    cases h
  have hne : ∀ d, isIdentContinue d = false → c ≠ d := by
    rintro d hd rfl
    rw [h] at hd
    cases hd
  have hquote : CharClass.isQuote c = false := by
    simp [CharClass.isQuote, hne '"' (by decide), hne '\'' (by decide), hne '\x60' (by decide)]
  have hopening : CharClass.isOpening c = false := by
    simp [CharClass.isOpening, hne '(' (by decide), hne '[' (by decide), hne '{' (by decide)]
  have hclosing : CharClass.isClosing c = false := by
    simp [CharClass.isClosing, hne ')' (by decide), hne ']' (by decide), hne '}' (by decide)]
  simp [isNeutral, hskipped, hquote, hopening, hclosing, hne '/' (by decide), hne ',' (by decide),
    hne ':' (by decide), hne '\n' (by decide)]

end PugSize.Script
