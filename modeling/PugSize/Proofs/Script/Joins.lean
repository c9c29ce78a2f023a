import PugSize.Proofs.Script.Characters
import PugSize.Proofs.Script.Cuts

/-!
What may follow a token. Every token stays what it is before a text that begins with a separator,
which no identifier and no number goes on with.
-/

namespace PugSize.Script

/-- A text that goes on with no word and no number before it. -/
def Apart (v : Text) : Prop := ∀ c, v.head? = some c → isSeparator c = true

theorem Apart.nil : Apart [] := by
  intro c h
  cases h

theorem Apart.cons {c : Char} {cs : Text} (h : isSeparator c = true) : Apart (c :: cs) := by
  rintro d ⟨⟩
  exact h

theorem Apart.run_eq {p : Char → Bool} {t v : Text} (hv : Apart v)
    (hp : ∀ c, p c = true → isIdentContinue c = true) : run p (t ++ v) = run p t := by
  apply run_append
  refine .inr ?_
  intro c hc
  apply Bool.eq_false_iff.2
  intro hpc
  have hcontinue := hp c hpc
  rw [isIdentContinue_of_isSeparator (hv c hc)] at hcontinue
  cases hcontinue

theorem Apart.head_ne {v : Text} (hv : Apart v) {c : Char} (hc : isSeparator c = false) :
    v.head? ≠ some c := by
  intro h
  have hsep := hv c h
  rw [hc] at hsep
  cases hsep

theorem isIdentContinue_of_isDigit {c : Char} (h : c.isDigit = true) : isIdentContinue c = true :=
  isIdentContinue_of_isDigitMark (isDigitMark_of_isDigit h)

theorem fractionLength_append {t v : Text} (hv : Apart v) :
    fractionLength (t ++ v) = fractionLength t := by
  cases t with
  | nil =>
      cases v with
      | nil => rfl
      | cons c cs =>
          have hc : c ≠ '.' := fun heq => hv.head_ne (c := '.') (by decide) (by rw [heq]; rfl)
          simp [fractionLength, hc]
  | cons c cs =>
      by_cases hc : c = '.'
      · subst hc
        simp only [List.cons_append, fractionLength]
        rw [hv.run_eq (p := isDigitMark) fun _ => isIdentContinue_of_isDigitMark]
      · simp [fractionLength, hc]

theorem exponentLength_append {t v : Text} (hv : Apart v) :
    exponentLength (t ++ v) = exponentLength t := by
  have hrun (cs : Text) : run Char.isDigit (cs ++ v) = run Char.isDigit cs :=
    hv.run_eq (p := Char.isDigit) fun _ => isIdentContinue_of_isDigit
  cases t with
  | nil =>
      cases v with
      | nil => rfl
      | cons c cs =>
          have he : ¬ (c = 'e' ∨ c = 'E') := by
            rintro (rfl | rfl)
            · exact hv.head_ne (c := 'e') (by decide) rfl
            · exact hv.head_ne (c := 'E') (by decide) rfl
          exact exponentLength_of_not he
  | cons e cs =>
      by_cases he : e = 'e' ∨ e = 'E'
      · rw [List.cons_append, exponentLength_cons he, exponentLength_cons he]
        cases cs with
        | nil =>
            have hsign : signLength v = 0 := by
              cases v with
              | nil => rfl
              | cons c cs =>
                  have hc : ¬ (c = '+' ∨ c = '-') := by
                    rintro (rfl | rfl)
                    · exact hv.head_ne (c := '+') (by decide) rfl
                    · exact hv.head_ne (c := '-') (by decide) rfl
                  exact if_neg hc
            rw [List.nil_append, hsign, List.drop_zero]
            have := hrun []
            rw [List.nil_append] at this
            rw [this]
            rfl
        | cons d ds =>
            have hone := signLength_le_one (d :: ds)
            have hdrop : (d :: ds ++ v).drop (signLength (d :: ds)) =
                (d :: ds).drop (signLength (d :: ds)) ++ v :=
              List.drop_append_of_le_length (by simp only [List.length_cons]; omega)
            have hsign : signLength (d :: ds ++ v) = signLength (d :: ds) := rfl
            rw [hsign, hdrop, hrun]
      · rw [List.cons_append, exponentLength_of_not he, exponentLength_of_not he]

theorem hexLength_append {t v : Text} (hv : Apart v) : hexLength (t ++ v) = hexLength t := by
  cases t with
  | nil =>
      cases v with
      | nil => rfl
      | cons c cs =>
          have hc : c ≠ '0' := fun heq => hv.head_ne (c := '0') (by decide) (by rw [heq]; rfl)
          rw [List.nil_append, hexLength_of_ne hc]
          rfl
  | cons c cs =>
      by_cases hc : c = '0'
      · subst hc
        cases cs with
        | nil =>
            cases v with
            | nil => rfl
            | cons x xs =>
                have hx : ¬ (x = 'x' ∨ x = 'X') := by
                  rintro (rfl | rfl)
                  · exact hv.head_ne (c := 'x') (by decide) rfl
                  · exact hv.head_ne (c := 'X') (by decide) rfl
                exact hexLength_of_not hx
        | cons x xs =>
            by_cases hx : x = 'x' ∨ x = 'X'
            · rw [List.cons_append, List.cons_append, hexLength_cons hx, hexLength_cons hx,
                hv.run_eq fun c => isIdentContinue_of_isHexMark]
            · rw [List.cons_append, List.cons_append, hexLength_of_not hx, hexLength_of_not hx]
      · rw [List.cons_append, hexLength_of_ne hc, hexLength_of_ne hc]

theorem decimalLength_append {t v : Text} (hv : Apart v) :
    decimalLength (t ++ v) = decimalLength t := by
  simp only [decimalLength]
  have hwhole := run_le_length isDigitMark t
  have hpart := fractionLength_le_length (t.drop (run isDigitMark t))
  rw [List.length_drop] at hpart
  rw [hv.run_eq (p := isDigitMark) fun _ => isIdentContinue_of_isDigitMark,
    List.drop_append_of_le_length hwhole, fractionLength_append hv,
    List.drop_append_of_le_length (by omega), exponentLength_append hv]

theorem pointLexeme_append {t v : Text} (hv : Apart v) : pointLexeme (t ++ v) = pointLexeme t := by
  by_cases hdigit : ∃ c cs, t = c :: cs ∧ c.isDigit = true
  · obtain ⟨c, cs, rfl, hc⟩ := hdigit
    rw [List.cons_append, pointLexeme_digit hc, pointLexeme_digit hc, ← List.cons_append,
      hv.run_eq (p := isDigitMark) fun _ => isIdentContinue_of_isDigitMark,
      List.drop_append_of_le_length (run_le_length ..), exponentLength_append hv]
  · by_cases hdots : ∃ cs, t = '.' :: '.' :: cs
    · obtain ⟨cs, rfl⟩ := hdots
      rfl
    · have hhead : ∀ c, t.head? = some c → c.isDigit = false := by
        intro c hc
        obtain ⟨cs, rfl⟩ := List.head?_eq_some_iff.1 hc
        exact Bool.eq_false_iff.2 fun hd => hdigit ⟨c, cs, rfl, hd⟩
      rw [pointLexeme_other hhead fun cs hcs => hdots ⟨cs, hcs⟩]
      apply pointLexeme_other
      · intro c hc
        cases t with
        | nil =>
            apply Bool.eq_false_iff.2
            intro hd
            have := isIdentContinue_of_isSeparator (hv c hc)
            rw [isIdentContinue_of_isDigit hd] at this
            cases this
        | cons d ds => exact hhead c hc
      · intro cs hcs
        match t, hcs with
        | [], hcs => exact hv.head_ne (c := '.') (by decide) (by rw [← List.nil_append v, hcs]; rfl)
        | [d], hcs =>
            obtain ⟨-, rfl⟩ := List.cons.inj hcs
            exact hv.head_ne (c := '.') (by decide) rfl
        | d :: e :: ds, hcs =>
            simp only [List.cons_append, List.cons.injEq] at hcs
            exact hdots ⟨ds, by rw [hcs.1, hcs.2.1]⟩

theorem slashLexeme?_append {t v : Text} {kind : TokenKind} {n : Nat}
    (h : slashLexeme? t = some (.token kind, n)) (hv : Apart v)
    (hslash : t = [] → v.head? ≠ some '/') : slashLexeme? (t ++ v) = some (.token kind, n) := by
  have hother (c : Char) (cs : Text) (hc : c ≠ '/') (hc' : c ≠ '*') :
      slashLexeme? (c :: cs) = some (.token .punct, 1) := by
    simp [slashLexeme?, hc, hc']
  cases t with
  | nil =>
      cases v with
      | nil => exact h
      | cons c cs =>
          have hc : c ≠ '/' := fun heq => hslash rfl (by rw [heq]; rfl)
          have hc' : c ≠ '*' := fun heq => hv.head_ne (c := '*') (by decide) (by rw [heq]; rfl)
          rw [List.nil_append, hother c cs hc hc']
          exact h
  | cons c cs =>
      by_cases hc : c = '/'
      · subst hc
        cases h
      · by_cases hc' : c = '*'
        · subst hc'
          obtain ⟨m, -, hm⟩ := Option.map_eq_some_iff.1 h
          cases hm
        · rw [hother c cs hc hc'] at h
          rw [List.cons_append, hother c _ hc hc', h]

/-- A token keeps what it is before a text that goes on with none, apart from a slash before
another slash. -/
theorem firstLexeme?_append {t v : Text} {kind : TokenKind} {n : Nat}
    (h : firstLexeme? t = some (.token kind, n)) (hv : Apart v)
    (hslash : t = ['/'] → v.head? ≠ some '/') :
    firstLexeme? (t ++ v) = some (.token kind, n) := by
  cases t with
  | nil => cases h
  | cons c cs =>
      simp only [List.cons_append, firstLexeme?] at h ⊢
      split at h
      · cases h
      rename_i hblank
      rw [if_neg hblank]
      split at h
      · rename_i hident
        rw [if_pos hident, hv.run_eq fun _ => id]
        exact h
      rename_i hident
      rw [if_neg hident]
      split at h
      · rename_i hdigit
        rw [if_pos hdigit, ← List.cons_append, decimalLength_append hv, hexLength_append hv]
        exact h
      rename_i hdigit
      rw [if_neg hdigit]
      split at h
      · rename_i heq
        subst heq
        rw [if_pos rfl]
        exact slashLexeme?_append h hv fun hnil => hslash (by rw [hnil])
      rename_i hne
      rw [if_neg hne]
      split at h
      · rename_i hpoint
        rw [if_pos hpoint, pointLexeme_append hv]
        exact h
      rename_i hpoint
      rw [if_neg hpoint]
      have hquoted (hc : c ≠ '\\') {k : LexemeKind}
          (h : (quotedLength? c cs).map (fun n => (k, 1 + n)) = some (.token kind, n)) :
          (quotedLength? c (cs ++ v)).map (fun n => (k, 1 + n)) = some (.token kind, n) := by
        obtain ⟨m, hm, heq⟩ := Option.map_eq_some_iff.1 h
        obtain ⟨body, rest, rfl, hbody, rfl⟩ := body_of_quotedLength? hm
        rw [List.append_assoc, List.cons_append, quotedLength?_of_body hbody hc, Option.map_some, heq]
      split at h
      · rename_i hquote
        rw [if_pos hquote]
        exact hquoted (by rintro rfl; simp at hquote) h
      rename_i hquote
      rw [if_neg hquote]
      split at h
      · rename_i htemplate
        rw [if_pos htemplate]
        exact hquoted (by rintro rfl; simp at htemplate) h
      rename_i htemplate
      rw [if_neg htemplate]
      exact h

end PugSize.Script
