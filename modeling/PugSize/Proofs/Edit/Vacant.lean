import Mathlib.Data.List.DropRight
import PugSize.Edit.Slots
import PugSize.Proofs.Script.Fresh

/-!
Texts that stand for no value. White space around a text does not matter to them, and a text with any
character that no such text has stands for something.
-/

namespace PugSize

namespace Text

/-- Trimming leaves what is no white space. -/
theorem mem_trimEnd {c : Char} {t : Text} (hc : c ∈ t) (hblank : isBlank c = false) : c ∈ trimEnd t := by
  have hparts := @List.takeWhile_append_dropWhile _ isBlank t.reverse
  rw [trimEnd, List.mem_reverse]
  rw [← List.mem_reverse, ← hparts, List.mem_append] at hc
  refine hc.resolve_left fun h => ?_
  rw [List.mem_takeWhile_imp h] at hblank
  cases hblank

theorem mem_trim {c : Char} {t : Text} (hc : c ∈ t) (hblank : isBlank c = false) : c ∈ trim t := by
  have hparts := @List.takeWhile_append_dropWhile _ isBlank t
  apply mem_trimEnd _ hblank
  rw [← hparts, List.mem_append] at hc
  refine hc.resolve_left fun h => ?_
  rw [List.mem_takeWhile_imp h] at hblank
  cases hblank

theorem trimEnd_append_blank {t w : Text} (hw : ∀ c ∈ w, isBlank c = true) : trimEnd (t ++ w) = trimEnd t := by
  rw [trimEnd, List.reverse_append,
    List.dropWhile_append_of_pos fun c hc => hw c (List.mem_reverse.1 hc), trimEnd]

theorem trim_blank {w : Text} (hw : ∀ c ∈ w, isBlank c = true) : trim w = [] := by
  have hstart : trimStart w = [] := by
    have := @List.dropWhile_append_of_pos _ isBlank w [] hw
    rwa [List.append_nil] at this
  rw [trim, hstart]
  rfl

theorem trim_append_blank {t w : Text} (hw : ∀ c ∈ w, isBlank c = true) : trim (t ++ w) = trim t := by
  by_cases ht : ∀ c ∈ t, isBlank c = true
  · rw [trim_blank ht, trim_blank (List.forall_mem_append.2 ⟨ht, hw⟩)]
  · have hstart : trimStart (t ++ w) = trimStart t ++ w := by
      rw [trimStart, List.dropWhile_append, if_neg, trimStart]
      rw [List.isEmpty_iff, List.dropWhile_eq_nil_iff]
      exact ht
    rw [trim, hstart, trimEnd_append_blank hw, trim]

theorem trim_blank_append {t w : Text} (hw : ∀ c ∈ w, isBlank c = true) : trim (w ++ t) = trim t := by
  rw [trim, trimStart, List.dropWhile_append_of_pos hw, trim, trimStart]

theorem exists_trimEnd (t : Text) : ∃ w, t = trimEnd t ++ w ∧ ∀ c ∈ w, isBlank c = true := by
  refine ⟨(t.reverse.takeWhile isBlank).reverse, ?_, fun c hc => ?_⟩
  · rw [trimEnd, ← List.reverse_append, List.takeWhile_append_dropWhile, List.reverse_reverse]
  · exact List.mem_takeWhile_imp (List.mem_reverse.1 hc)

end Text

open Text

theorem isVacant_append_blank {t w : Text} (hw : ∀ c ∈ w, isBlank c = true) :
    isVacant (t ++ w) = isVacant t := by
  rw [isVacant, isVacant, trim_append_blank hw]

theorem isVacant_blank_append {t w : Text} (hw : ∀ c ∈ w, isBlank c = true) :
    isVacant (w ++ t) = isVacant t := by
  rw [isVacant, isVacant, trim_blank_append hw]

theorem isVacant_trimEnd (t : Text) : isVacant (trimEnd t) = isVacant t := by
  obtain ⟨w, ht, hw⟩ := exists_trimEnd t
  conv_rhs => rw [ht]
  exact (isVacant_append_blank hw).symm

/-- The characters of the texts that stand for no value. -/
def vacantChars : Text := "undefinedl\"'\x60".toList

/-- A text with a character that stands in no vacant text stands for something. -/
theorem not_vacant_of_mem {c : Char} {t : Text} (hc : c ∈ t) (hblank : isBlank c = false)
    (hchar : c ∉ vacantChars) : isVacant t = false := by
  apply Bool.eq_false_iff.2
  intro hvacant
  have hmem := mem_trim hc hblank
  have hall : (["", "null", "undefined", "\"\"", "''", "\x60\x60"].all fun s =>
      s.toList.all fun d => vacantChars.contains d) = true := by decide
  have hlist := List.all_eq_true.1 (List.all_eq_true.1 hall _ (of_decide_eq_true hvacant)) c (by
    rwa [String.toList_ofList])
  exact hchar (List.contains_iff_mem.1 hlist)

open Script in
theorem isBlank_of_isDigit {c : Char} (h : c.isDigit = true) : Text.isBlank c = false := by
  have hcontinue := isIdentContinue_of_isDigit h
  apply Bool.eq_false_iff.2
  intro hblank
  have hseparator := isSeparator_of_isSkipped (by simp [isSkipped, hblank] : isSkipped c = true)
  rw [isIdentContinue_of_isSeparator hseparator] at hcontinue
  cases hcontinue

/-- A text that ends with a number stands for something. -/
theorem not_vacant_of_number (u : Text) {t : Text} (ht : Script.IsDigits t) : isVacant (u ++ t) = false := by
  obtain ⟨c, cs, rfl⟩ := List.exists_cons_of_ne_nil ht.1
  have hc := ht.2 c List.mem_cons_self
  refine not_vacant_of_mem (List.mem_append_right u List.mem_cons_self) (isBlank_of_isDigit hc) fun hmem => ?_
  have hall : (vacantChars.all fun d => !d.isDigit) = true := by decide
  have := List.all_eq_true.1 hall c hmem
  rw [hc] at this
  cases this

end PugSize
