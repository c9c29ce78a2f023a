import Mathlib
import PugSize.Number.Notation
import PugSize.Proofs.Edit.Slots

/-!
Whole numbers in decimal notation. Up to 53 bits, the binary number nearest to one is that number: its
mantissa takes all bits, and rounding gives it back.
-/

namespace PugSize

namespace Binary

variable {n : Nat}

theorem divNearest_one (n : Nat) : divNearest n 1 = n := by
  rw [divNearest, Nat.div_one, Nat.mod_one, if_pos (.inl (by decide))]

/-- The places that a whole number of at most 53 bits is moved up by, to fill a mantissa. -/
def room (n : Nat) : Nat := 52 - Nat.log2 n

theorem log2_add_room (h : n < 2 ^ 53) : Nat.log2 n + room n = 52 := by
  have hlog : Nat.log2 n ≤ 52 := by
    by_cases hn : n = 0
    · rw [hn]
      decide
    · exact Nat.le_of_lt_succ ((Nat.log2_lt hn).2 h)
  rw [room]
  omega

/-- The mantissa of a whole number has all its bits. -/
theorem mantissa_bounds (hn : n ≠ 0) (h : n < 2 ^ 53) :
    2 ^ 52 ≤ n * 2 ^ room n ∧ n * 2 ^ room n < 2 ^ 53 := by
  obtain ⟨hleast, hmost⟩ := (Nat.log2_eq_iff hn).1 rfl
  constructor
  · calc 2 ^ 52 = 2 ^ Nat.log2 n * 2 ^ room n := by rw [← Nat.pow_add, log2_add_room h]
      _ ≤ n * 2 ^ room n := Nat.mul_le_mul_right _ hleast
  · calc n * 2 ^ room n < 2 ^ (Nat.log2 n + 1) * 2 ^ room n :=
          Nat.mul_lt_mul_of_pos_right hmost (Nat.two_pow_pos _)
      _ = 2 ^ 53 := by rw [← Nat.pow_add, Nat.add_right_comm, log2_add_room h]

theorem ofRatio_whole (hn : n ≠ 0) (h : n < 2 ^ 53) :
    ofRatio false n 1 = .finite false (n * 2 ^ room n) (-(room n : Int)) := by
  obtain ⟨hleast, hmost⟩ := mantissa_bounds hn h
  have hlog := log2_add_room h
  have hguess : (Nat.log2 n : Int) - (Nat.log2 1 : Int) - (precision - 1 : Nat) = -(room n : Int) := by
    have hone : Nat.log2 1 = 0 := by decide
    have hbits : precision - 1 = 52 := rfl
    rw [hone, hbits]
    omega
  have hscaled : scaled n 1 (-(room n : Int)) = (n * 2 ^ room n, 1) := by
    have hup : (- -(room n : Int)).toNat = room n := by omega
    have hdown : (-(room n : Int)).toNat = 0 := by omega
    rw [scaled, hup, hdown]
    rfl
  have hexponent : exponentFor n 1 = -(room n : Int) := by
    have hroom : room n ≤ 52 := Nat.sub_le ..
    have hmin : minExponent = -1074 := rfl
    have hfull : ¬n * 2 ^ room n < Nat.pow 2 (precision - 1) * 1 := Nat.not_lt.2 hleast
    rw [exponentFor, hguess, hscaled]
    dsimp only
    rw [if_neg hfull, hmin]
    omega
  have hbits : ¬n * 2 ^ room n = Nat.pow 2 precision := Nat.ne_of_lt hmost
  have hrange : ¬-(room n : Int) > maxExponent := by
    have hmax : maxExponent = 971 := rfl
    rw [hmax]
    omega
  rw [ofRatio, hexponent]
  dsimp only
  rw [hscaled]
  dsimp only
  rw [divNearest_one, if_neg hbits]
  dsimp only
  rw [if_neg hrange]

/-- A whole number of at most 53 bits is rounded to itself. -/
theorem round?_ofDecimal (hn : n ≠ 0) (h : n < 2 ^ 53) : (ofDecimal false n 0).round? = some (n : Int) := by
  have hwhole : ofDecimal false n 0 = ofRatio false n 1 := by
    have hsize : ¬(0 : Int) + ((Nat.log2 n : Int) / 3 + 1) < -400 := by omega
    rw [ofDecimal, if_neg hn, if_neg (by decide), if_neg hsize, if_neg (by decide)]
    exact congrArg (ofRatio false · 1) (Nat.mul_one n)
  have hround : roundMagnitude (n * 2 ^ room n) (-(room n : Int)) = n := by
    rw [roundMagnitude]
    split
    · have hunit : (- -(room n : Int)).toNat = room n := by omega
      have hpos := Nat.two_pow_pos (room n)
      have hparts : 2 * (n * 2 ^ room n) + 2 ^ room n = 2 ^ room n + n * (2 * 2 ^ room n) := by
        rw [Nat.mul_left_comm, Nat.add_comm]
      rw [hunit]
      change (2 * (n * 2 ^ room n) + 2 ^ room n) / (2 * 2 ^ room n) = n
      rw [hparts, Nat.add_mul_div_right _ _ (by omega), Nat.div_eq_of_lt (by omega), Nat.zero_add]
    · have hroom : room n = 0 := by omega
      rw [hroom]
      exact (Nat.mul_one _).trans (Nat.mul_one n)
  rw [hwhole, ofRatio_whole hn h, round?, hround]
  rfl

end Binary

theorem digitsValue_eq (value : Nat) (t : Text) : digitsValue value t = Nat.ofDigitChars 10 t value := by
  induction t generalizing value with
  | nil => rfl
  | cons c cs ih => exact ih _

theorem digitsValue_decimal (n : Nat) : digitsValue 0 (decimal n) = n := by
  rw [digitsValue_eq, decimal, Nat.toString_eq_repr, Nat.toList_repr, Nat.ofDigitChars_ten_toDigits]

theorem toLower_of_isDigit {c : Char} (h : c.isDigit = true) : c.toLower = c := by
  have hnine : c.val ≤ '9'.val := of_decide_eq_true (Bool.and_eq_true_iff.1 h).2
  exact dif_neg fun hupper => absurd (UInt32.le_trans hupper.1 hnine) (by decide)

namespace Binary

/-- Digits are read as the number that they make. -/
theorem read?_decimal (n : Nat) : read? (decimal n) = some (ofDecimal false n 0) := by
  obtain ⟨hsome, hdigits⟩ := isDigits_decimal n
  obtain ⟨c, cs, hchars⟩ := List.exists_cons_of_ne_nil hsome
  have hc : c.isDigit = true := hdigits c (by rw [hchars]; exact List.mem_cons_self)
  have hsign : splitSign (decimal n) = (false, decimal n) := by
    rw [hchars]
    unfold splitSign
    split
    · rename_i heq
      cases heq
      cases hc
    · rename_i heq
      cases heq
      cases hc
    · rfl
  have hname {name : String} {d : Char} (hd : name.toList.head? = some d) (hother : d.isDigit = false) :
      String.ofList ((decimal n).map Char.toLower) ≠ name := by
    rintro rfl
    rw [String.toList_ofList, hchars, List.map_cons, List.head?_cons, toLower_of_isDigit hc,
      Option.some.injEq] at hd
    subst hd
    rw [hc] at hother
    cases hother
  have hmagnitude : magnitude? false (decimal n) = some (ofDecimal false n 0) := by
    have hwhole : (decimal n).takeWhile Char.isDigit = decimal n :=
      List.takeWhile_eq_self_iff.2 hdigits
    have hnone : (decimal n).isEmpty = false := List.isEmpty_eq_false_iff.2 hsome
    rw [magnitude?, hwhole, List.drop_length]
    dsimp only
    rw [hnone, List.append_nil, digitsValue_decimal]
    rfl
  rw [read?, hsign]
  dsimp only
  split
  · rename_i heq
    exact absurd heq (hname rfl rfl)
  · rename_i heq
    exact absurd heq (hname rfl rfl)
  · rename_i heq
    exact absurd heq (hname rfl rfl)
  · exact hmagnitude

end Binary

end PugSize
