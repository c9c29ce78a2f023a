import PugSize.Proofs.Script.Legible

/-!
Where lexemes are looked for. No text of any class at the front is longer than the lexeme that is cut
off there, and nothing is cut off only where no text of a class stands or where a block comment is never
closed.
-/

namespace PugSize.Script

/-- Whether a text begins with a block comment that is never closed. -/
def Unclosed (t : Text) : Prop := ∃ body, t = '/' :: '*' :: body ∧ ¬ ['*', '/'] <:+: body

theorem not_closed_of_blockLength? {body : Text} (h : blockLength? body = none) :
    ¬ ['*', '/'] <:+: body := by
  rintro ⟨before, after, rfl⟩
  induction before with
  | nil => cases h
  | cons c before ih =>
      rw [List.cons_append, List.cons_append, blockLength?.eq_def] at h
      split at h
      · contradiction
      · cases h
      · rename_i heq
        obtain ⟨rfl, rfl⟩ := List.cons.inj heq
        exact ih (Option.map_eq_none_iff.1 h)

theorem length_le_run {p : Char → Bool} {w : Text} (h : ∀ c ∈ w, p c = true) (rest : Text) :
    w.length ≤ run p (w ++ rest) := by
  rw [run, List.takeWhile_append_of_pos h, List.length_append]
  exact Nat.le_add_right _ _

theorem run_eq_length {p : Char → Bool} {w rest : Text} (h : ∀ c ∈ w, p c = true)
    (hrest : ∀ c, rest.head? = some c → p c = false) : run p (w ++ rest) = w.length := by
  rw [run_append (.inr hrest), run, List.takeWhile_eq_self_iff.2 h]

theorem Exponent.eq_nil_or {t : Text} (h : Exponent t) :
    t = [] ∨ ∃ e cs, t = e :: cs ∧ (e = 'e' ∨ e = 'E') := by
  cases h with
  | none => exact .inl rfl
  | power letter => exact .inr ⟨_, _, rfl, letter⟩

theorem Exponent.length_le {t : Text} (h : Exponent t) (rest : Text) :
    t.length ≤ exponentLength (t ++ rest) := by
  cases h with
  | none => exact Nat.zero_le _
  | @power e sign digits letter hsign filled h =>
      obtain ⟨d, ds, rfl⟩ := List.exists_cons_of_ne_nil filled
      have hrun := length_le_run h rest
      have hsigned : signLength (sign ++ (d :: ds) ++ rest) = sign.length := by
        simp only [List.mem_cons, List.not_mem_nil, or_false] at hsign
        obtain rfl | rfl | rfl := hsign
        · have hd : ¬ (d = '+' ∨ d = '-') := by
            have hdigit := h d List.mem_cons_self
            rintro (rfl | rfl) <;> cases hdigit
          exact if_neg hd
        · rfl
        · rfl
      rw [List.cons_append, exponentLength_cons letter, hsigned, List.append_assoc, List.drop_left,
        List.length_cons, List.length_append]
      split <;> simp only [List.length_cons] at * <;> omega

/-- Digits and an exponent behind them are taken together. -/
theorem marks_exponent_le {w exponent : Text} (h : ∀ c ∈ w, isDigitMark c = true)
    (hexponent : Exponent exponent) (rest : Text) :
    let t := w ++ exponent ++ rest
    w.length + exponent.length ≤ run isDigitMark t + exponentLength (t.drop (run isDigitMark t)) := by
  intro t
  obtain rfl | ⟨e, cs, rfl, he⟩ := hexponent.eq_nil_or
  · have := length_le_run h ([] ++ rest)
    rw [← List.append_assoc] at this
    exact Nat.le_trans this (Nat.le_add_right _ _)
  · have hrun : run isDigitMark t = w.length := by
      rw [show t = w ++ (e :: cs ++ rest) from List.append_assoc ..]
      refine run_eq_length h ?_
      rintro c ⟨⟩
      obtain rfl | rfl := he <;> decide
    have hlength := hexponent.length_le rest
    rw [hrun, show t = w ++ (e :: cs ++ rest) from List.append_assoc .., List.drop_left]
    omega

theorem fraction_exponent_le {fraction exponent : Text} (hfraction : Fraction fraction)
    (hexponent : Exponent exponent) (rest : Text) :
    let t := fraction ++ exponent ++ rest
    fraction.length + exponent.length ≤ fractionLength t + exponentLength (t.drop (fractionLength t)) := by
  intro t
  cases hfraction with
  | none =>
      obtain rfl | ⟨e, cs, rfl, he⟩ := hexponent.eq_nil_or
      · exact Nat.zero_le _
      · have hzero : fractionLength t = 0 := by
          change fractionLength (e :: (cs ++ rest)) = 0
          obtain rfl | rfl := he <;> rfl
        have hlength := hexponent.length_le rest
        rw [hzero, List.drop_zero]
        change 0 + (e :: cs).length ≤ 0 + exponentLength (e :: cs ++ rest)
        rwa [Nat.zero_add, Nat.zero_add]
  | @point marks h =>
      have hlength := marks_exponent_le h hexponent rest
      have hpoint : fractionLength t = 1 + run isDigitMark (marks ++ exponent ++ rest) := rfl
      have hdrop : t.drop (1 + run isDigitMark (marks ++ exponent ++ rest)) =
          (marks ++ exponent ++ rest).drop (run isDigitMark (marks ++ exponent ++ rest)) := by
        rw [Nat.add_comm]
        rfl
      rw [hpoint, hdrop, List.length_cons]
      omega

theorem length_le_decimal {w fraction exponent : Text} (h : ∀ c ∈ w, isDigitMark c = true)
    (hfraction : Fraction fraction) (hexponent : Exponent exponent) (rest : Text) :
    (w ++ fraction ++ exponent).length ≤ decimalLength (w ++ fraction ++ exponent ++ rest) := by
  have hparts : w ++ fraction ++ exponent ++ rest = w ++ (fraction ++ exponent ++ rest) := by simp
  by_cases hplain : fraction ++ exponent = []
  · obtain ⟨rfl, rfl⟩ := List.append_eq_nil_iff.1 hplain
    have hrun := length_le_run h ([] ++ [] ++ rest)
    rw [← hparts] at hrun
    simp only [decimalLength, List.append_nil] at hrun ⊢
    omega
  · have hrun : run isDigitMark (w ++ (fraction ++ exponent ++ rest)) = w.length := by
      refine run_eq_length h fun c hc => ?_
      cases hfraction with
      | none =>
          obtain rfl | ⟨e, cs, rfl, he⟩ := hexponent.eq_nil_or
          · exact absurd rfl hplain
          · obtain rfl : e = c := Option.some.inj hc
            obtain rfl | rfl := he <;> decide
      | point =>
          obtain rfl : '.' = c := Option.some.inj hc
          decide
    have hlength := fraction_exponent_le hfraction hexponent rest
    rw [hparts]
    simp only [decimalLength]
    rw [hrun, List.drop_left, ← List.drop_drop, List.drop_left]
    simp only [List.length_append] at hlength ⊢
    omega

theorem length_le_point {c : Char} {cs exponent : Text} (first : c.isDigit = true)
    (h : ∀ d ∈ cs, isDigitMark d = true) (hexponent : Exponent exponent) (rest : Text) :
    ('.' :: c :: cs ++ exponent).length ≤ (pointLexeme (c :: (cs ++ exponent ++ rest))).2 := by
  have hmarks : ∀ d ∈ c :: cs, isDigitMark d = true :=
    List.forall_mem_cons.2 ⟨isDigitMark_of_isDigit first, h⟩
  have hlength := marks_exponent_le hmarks hexponent rest
  rw [pointLexeme_digit first]
  simp only [List.cons_append, List.length_cons, List.length_append] at hlength ⊢
  omega

theorem length_le_hex {x : Char} {digits : Text} (letter : x = 'x' ∨ x = 'X') (filled : digits ≠ [])
    (h : ∀ c ∈ digits, isHexMark c = true) (rest : Text) :
    ('0' :: x :: digits).length ≤ hexLength ('0' :: x :: (digits ++ rest)) := by
  have hrun := length_le_run h rest
  have hpos := List.length_pos_iff.2 filled
  rw [hexLength_cons letter]
  change _ ≤ if run isHexMark (digits ++ rest) = 0 then 0 else 2 + run isHexMark (digits ++ rest)
  rw [if_neg (by omega), List.length_cons, List.length_cons]
  omega

theorem firstLexeme?_ident {c : Char} (cs : Text) (hc : isIdentStart c = true) :
    firstLexeme? (c :: cs) = some (.token .ident, 1 + run isIdentContinue cs) := by
  have hskipped : isSkipped c ≠ true := by
    intro hs
    have hcontinue := isIdentContinue_of_isIdentStart hc
    rw [isIdentContinue_of_isSeparator (isSeparator_of_isSkipped hs)] at hcontinue
    cases hcontinue
  rw [firstLexeme?, if_neg hskipped, if_pos hc]

theorem firstLexeme?_point (cs : Text) :
    firstLexeme? ('.' :: cs) = some (.token (pointLexeme cs).1, (pointLexeme cs).2) := by
  rw [firstLexeme?, if_neg (by decide), if_neg (by decide), if_neg (by decide), if_neg (by decide),
    if_pos rfl]

theorem firstLexeme?_slash (cs : Text) : firstLexeme? ('/' :: cs) = slashLexeme? cs := by
  rw [firstLexeme?, if_neg (by decide), if_neg (by decide), if_neg (by decide), if_pos rfl]

/-- A slash is cut off unless it opens a block comment that is never closed. -/
theorem slashLexeme?_or (cs : Text) :
    (∃ kind n, slashLexeme? cs = some (kind, n)) ∨ Unclosed ('/' :: cs) := by
  unfold slashLexeme?
  split
  · exact .inl ⟨_, _, rfl⟩
  · rename_i rest
    cases hlength : blockLength? rest with
    | none => exact .inr ⟨rest, rfl, not_closed_of_blockLength? hlength⟩
    | some n => exact .inl ⟨_, _, rfl⟩
  · exact .inl ⟨_, _, rfl⟩

theorem exists_of_isPunct {c : Char} (h : isPunct c = true) (cs : Text) :
    (∃ kind n, firstLexeme? (c :: cs) = some (kind, n)) ∨ Unclosed (c :: cs) := by
  by_cases hslash : c = '/'
  · subst hslash
    rw [firstLexeme?_slash]
    exact slashLexeme?_or cs
  · left
    by_cases hpoint : c = '.'
    · subst hpoint
      exact ⟨_, _, firstLexeme?_point cs⟩
    · have hall : ".;?!~%^&|*/+-<>=@#".toList.all (fun d => d ≠ '/' → d ≠ '.' →
          isSkipped d ≠ true ∧ isIdentStart d ≠ true ∧ d.isDigit ≠ true ∧
            ¬ (d = '"' ∨ d = '\'') ∧ d ≠ '\x60' ∧ singleKind? d = some .punct) = true := by decide
      obtain ⟨hskipped, hstart, hdigit, hquote, htemplate, hsingle⟩ :=
        of_decide_eq_true (List.all_eq_true.1 hall c (of_decide_eq_true h)) hslash hpoint
      refine ⟨.token .punct, 1, ?_⟩
      rw [firstLexeme?, if_neg hskipped, if_neg hstart, if_neg hdigit, if_neg hslash, if_neg hpoint,
        if_neg hquote, if_neg htemplate, hsingle]
      rfl

/-- Where a text of some class stands at the front, a lexeme is cut off that is at least as long, unless
a block comment is never closed. -/
theorem exists_lexeme_of_inClass {kind : LexemeKind} {t : Text} (h : InClass kind t) (rest : Text) :
    (∃ kind' n, firstLexeme? (t ++ rest) = some (kind', n) ∧ t.length ≤ n) ∨ Unclosed (t ++ rest) := by
  cases h with
  | @blank c cs first h =>
      refine .inl ⟨_, _, firstLexeme?_skipped (cs ++ rest) first, ?_⟩
      have := length_le_run h rest
      rw [List.length_cons]
      omega
  | @lineComment body h =>
      have hbody : ∀ c ∈ body, (c != '\n') = true := fun c hc => by
        rw [bne_iff_ne]
        rintro rfl
        exact h hc
      have := length_le_run hbody rest
      refine .inl ⟨_, _, firstLexeme?_slash ('/' :: (body ++ rest)), ?_⟩
      simp only [List.length_cons]
      omega
  | @blockComment body h =>
      have hfirst := firstLexeme?_blockComment h rest
      exact .inl ⟨_, _, by simpa using hfirst, by simp⟩
  | @quoted quote body kind hquote h =>
      have hfirst := firstLexeme?_quoted hquote h rest
      exact .inl ⟨_, _, by simpa using hfirst, by simp⟩
  | @ident c cs first h =>
      refine .inl ⟨_, _, firstLexeme?_ident (cs ++ rest) first, ?_⟩
      have := length_le_run h rest
      rw [List.length_cons]
      omega
  | @decimal c cs fraction exponent first h hfraction hexponent =>
      have hmarks : ∀ d ∈ c :: cs, isDigitMark d = true :=
        List.forall_mem_cons.2 ⟨isDigitMark_of_isDigit first, h⟩
      have hlength := length_le_decimal hmarks hfraction hexponent rest
      exact .inl ⟨_, _, firstLexeme?_digit _ first, Nat.le_trans hlength (Nat.le_max_left _ _)⟩
  | @point c cs exponent first h hexponent =>
      exact .inl ⟨_, _, firstLexeme?_point _, length_le_point first h hexponent rest⟩
  | @hexadecimal x digits letter filled h =>
      have hlength := length_le_hex letter filled h rest
      exact .inl ⟨_, _, firstLexeme?_digit _ (by decide), Nat.le_trans hlength (Nat.le_max_right _ _)⟩
  | mark h => exact .inl ⟨_, _, firstLexeme?_mark h rest, Nat.le_refl 1⟩
  | spread => exact .inl ⟨_, _, firstLexeme?_point _, Nat.le_refl 3⟩
  | punct h =>
      refine (exists_of_isPunct h rest).imp_left ?_
      rintro ⟨kind, n, hfirst⟩
      exact ⟨kind, n, hfirst, firstLexeme?_length_pos hfirst⟩

/-- What is cut off at the front is the longest text of any class there. -/
theorem length_le_firstLexeme? {t p : Text} {kind kind' : LexemeKind} {n : Nat}
    (h : firstLexeme? t = some (kind, n)) (hp : InClass kind' p) (hbegins : p <+: t) : p.length ≤ n := by
  obtain ⟨rest, rfl⟩ := hbegins
  obtain ⟨kind'', m, hfirst, hle⟩ | ⟨body, hbody, hopen⟩ := exists_lexeme_of_inClass hp rest
  · rw [h, Option.some.injEq, Prod.mk.injEq] at hfirst
    rwa [hfirst.2]
  · rw [hbody, firstLexeme?_slash] at h
    obtain ⟨m, hm, -⟩ := Option.map_eq_some_iff.1 h
    obtain ⟨front, back, rfl, -, -⟩ := body_of_blockLength? hm
    exact absurd ⟨front, back, by simp⟩ hopen

/-- Where nothing is cut off, a block comment is never closed or no text of any class stands. -/
theorem unclosed_or_of_firstLexeme? {t : Text} (h : firstLexeme? t = none) :
    Unclosed t ∨ ∀ kind p, p <+: t → ¬ InClass kind p := by
  refine or_iff_not_imp_left.2 fun hclosed kind p hbegins hp => ?_
  obtain ⟨rest, rfl⟩ := hbegins
  obtain ⟨kind', n, hfirst, -⟩ := (exists_lexeme_of_inClass hp rest).resolve_right hclosed
  rw [h] at hfirst
  cases hfirst

end PugSize.Script
