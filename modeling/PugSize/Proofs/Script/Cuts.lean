import PugSize.Script.Lexeme

/-!
The longest lexeme at the front of a text and what follows it. Cutting the text behind the lexeme
keeps the lexeme, wherever the cut is made, and so does putting a text behind that begins with a
character which continues no lexeme.
-/

namespace PugSize.Script

/-- What stands between the quotes of a literal: characters of their own, and pairs that begin with
a backslash. -/
inductive QuotedBody (quote : Char) : Text → Prop
  | nil : QuotedBody quote []
  | escape (c : Char) {body : Text} (h : QuotedBody quote body) : QuotedBody quote ('\\' :: c :: body)
  | plain {c : Char} {body : Text} (slash : c ≠ '\\') (close : c ≠ quote)
      (line : c = '\n' → quote = '\x60') (h : QuotedBody quote body) : QuotedBody quote (c :: body)

theorem quotedLength?_of_body {quote : Char} {body : Text} (h : QuotedBody quote body)
    (hquote : quote ≠ '\\') (rest : Text) :
    quotedLength? quote (body ++ quote :: rest) = some (body.length + 1) := by
  induction h with
  | nil =>
      cases rest with
      | nil => simp [quotedLength?, hquote]
      | cons d ds => simp [quotedLength?, hquote]
  | escape c _ ih => simp [quotedLength?, ih]
  | @plain c body slash close line _ ih =>
      have hline : ¬ (c = '\n' ∧ quote ≠ '\x60') := fun hc => hc.2 (line hc.1)
      have hstep : quotedLength? quote (c :: (body ++ quote :: rest)) =
          (quotedLength? quote (body ++ quote :: rest)).map (· + 1) := by
        rw [quotedLength?.eq_def]
        split
        · contradiction
        · rename_i heq
          exact absurd (List.cons.inj heq).1 slash
        · rename_i heq
          exact absurd (List.cons.inj heq).1 slash
        · rename_i heq
          obtain ⟨rfl, rfl⟩ := List.cons.inj heq
          rw [if_neg close, if_neg hline]
      rw [List.cons_append, hstep, ih]
      rfl

theorem body_of_quotedLength? {quote : Char} {t : Text} {n : Nat}
    (h : quotedLength? quote t = some n) :
    ∃ body rest, t = body ++ quote :: rest ∧ QuotedBody quote body ∧ n = body.length + 1 := by
  fun_induction quotedLength? quote t generalizing n with
  | case1 => cases h
  | case2 => cases h
  | case3 c cs ih =>
      obtain ⟨m, hm, rfl⟩ := Option.map_eq_some_iff.1 h
      obtain ⟨body, rest, rfl, hbody, rfl⟩ := ih hm
      exact ⟨'\\' :: c :: body, rest, rfl, .escape c hbody, rfl⟩
  | case4 cs hslash hpair =>
      exact ⟨[], cs, rfl, .nil, by simpa using h.symm⟩
  | case5 => cases h
  | case6 c cs hlast hpair hquote hline ih =>
      obtain ⟨m, hm, rfl⟩ := Option.map_eq_some_iff.1 h
      obtain ⟨body, rest, rfl, hbody, rfl⟩ := ih hm
      have hslash : c ≠ '\\' := by
        rintro rfl
        cases body with
        | nil => exact hpair _ _ rfl rfl
        | cons d ds => exact hpair _ _ rfl rfl
      refine ⟨c :: body, rest, rfl, .plain hslash hquote ?_ hbody, rfl⟩
      intro hc
      exact Classical.byContradiction fun hne => hline ⟨hc, hne⟩

/-- What stands in a block comment: no asterisk of it is followed by a slash. -/
inductive BlockBody : Text → Prop
  | nil : BlockBody []
  | cons {c : Char} {body : Text} (open_ : c = '*' → body.head? ≠ some '/') (h : BlockBody body) :
      BlockBody (c :: body)

theorem blockLength?_of_body {body : Text} (h : BlockBody body) (rest : Text) :
    blockLength? (body ++ '*' :: '/' :: rest) = some (body.length + 2) := by
  induction h with
  | nil => rfl
  | @cons c body open_ _ ih =>
      have hstep : blockLength? (c :: (body ++ '*' :: '/' :: rest)) =
          (blockLength? (body ++ '*' :: '/' :: rest)).map (· + 1) := by
        rw [blockLength?.eq_def]
        split
        · contradiction
        · rename_i heq
          obtain ⟨rfl, hrest⟩ := List.cons.inj heq
          cases body with
          | nil => simp at hrest
          | cons d ds =>
              obtain ⟨rfl, -⟩ := List.cons.inj hrest
              exact absurd rfl (open_ rfl)
        · rename_i heq
          obtain ⟨rfl, rfl⟩ := List.cons.inj heq
          rfl
      rw [List.cons_append, hstep, ih]
      rfl

theorem body_of_blockLength? {t : Text} {n : Nat} (h : blockLength? t = some n) :
    ∃ body rest, t = body ++ '*' :: '/' :: rest ∧ BlockBody body ∧ n = body.length + 2 := by
  fun_induction blockLength? t generalizing n with
  | case1 => cases h
  | case2 rest => exact ⟨[], rest, rfl, .nil, by simpa using h.symm⟩
  | case3 c cs hclose ih =>
      obtain ⟨m, hm, rfl⟩ := Option.map_eq_some_iff.1 h
      obtain ⟨body, rest, rfl, hbody, rfl⟩ := ih hm
      refine ⟨c :: body, rest, rfl, .cons ?_ hbody, rfl⟩
      rintro rfl hhead
      obtain ⟨ds, rfl⟩ := List.head?_eq_some_iff.1 hhead
      exact hclose _ rfl rfl

theorem append_eq_append_cons {a b t v : Text} {c : Char} (h : t ++ v = a ++ c :: b)
    (hlt : a.length < t.length) : ∃ rest, t = a ++ c :: rest ∧ b = rest ++ v := by
  obtain ⟨m, ha, hv⟩ | ⟨m, ht, hb⟩ := List.append_eq_append_iff.1 h
  · rw [ha, List.length_append] at hlt
    omega
  · cases m with
    | nil =>
        rw [ht, List.append_nil] at hlt
        omega
    | cons d ds =>
        obtain ⟨rfl, rfl⟩ := List.cons.inj hb
        exact ⟨ds, ht, rfl⟩

theorem quotedLength?_of_append {quote : Char} {t v : Text} {n : Nat}
    (h : quotedLength? quote (t ++ v) = some n) (hn : n ≤ t.length) (hquote : quote ≠ '\\') :
    quotedLength? quote t = some n := by
  obtain ⟨body, rest, heq, hbody, rfl⟩ := body_of_quotedLength? h
  obtain ⟨rest, rfl, -⟩ := append_eq_append_cons heq (by omega)
  exact quotedLength?_of_body hbody hquote rest

theorem blockLength?_of_append {t v : Text} {n : Nat} (h : blockLength? (t ++ v) = some n)
    (hn : n ≤ t.length) : blockLength? t = some n := by
  obtain ⟨body, rest, heq, hbody, rfl⟩ := body_of_blockLength? h
  rw [List.append_cons] at heq
  obtain ⟨rest, rfl, -⟩ :=
    append_eq_append_cons heq (by simp only [List.length_append, List.length_singleton]; omega)
  rw [← List.append_cons]
  exact blockLength?_of_body hbody rest

theorem isDigitMark_of_isDigit {c : Char} (h : c.isDigit = true) : isDigitMark c = true := by
  simp [isDigitMark, h]

/-- A run ends where its text does or at a character that does not go on with it. -/
theorem run_append {p : Char → Bool} {t v : Text}
    (h : run p t < t.length ∨ ∀ c, v.head? = some c → p c = false) :
    run p (t ++ v) = run p t := by
  induction t with
  | nil =>
      cases v with
      | nil => rfl
      | cons c cs =>
          have hc : p c = false := h.resolve_left (Nat.not_lt_zero _) c rfl
          simp [run, hc]
  | cons c cs ih =>
      by_cases hc : p c
      · simp only [run, List.cons_append, List.takeWhile_cons, hc, if_true, List.length_cons] at h ih ⊢
        rw [ih (h.imp_left Nat.lt_of_succ_lt_succ)]
      · simp [run, hc]

theorem run_le_length (p : Char → Bool) (t : Text) : run p t ≤ t.length :=
  (List.takeWhile_sublist p).length_le

theorem run_of_append_le {p : Char → Bool} {t v : Text} (h : run p (t ++ v) ≤ t.length) :
    run p (t ++ v) = run p t := by
  induction t with
  | nil => simpa [run] using h
  | cons c cs ih =>
      by_cases hc : p c
      · simp only [run, List.cons_append, List.takeWhile_cons, hc, if_true, List.length_cons] at h ih ⊢
        rw [ih (by omega)]
      · simp [run, hc]

theorem fractionLength_of_append_le {t v : Text} (h : fractionLength (t ++ v) ≤ t.length) :
    fractionLength (t ++ v) = fractionLength t := by
  cases t with
  | nil => exact Nat.le_zero.1 h
  | cons c cs =>
      by_cases hc : c = '.'
      · subst hc
        simp only [List.cons_append, fractionLength, List.length_cons] at h ⊢
        rw [run_of_append_le (by omega)]
      · simp [fractionLength, hc]

/-- The length of the sign of an exponent. -/
def signLength : Text → Nat
  | s :: _ => if s = '+' ∨ s = '-' then 1 else 0
  | [] => 0

theorem signLength_le_one (t : Text) : signLength t ≤ 1 := by
  unfold signLength
  split
  · split <;> decide
  · decide

theorem exponentLength_cons {e : Char} {cs : Text} (he : e = 'e' ∨ e = 'E') :
    exponentLength (e :: cs) =
      if run Char.isDigit (cs.drop (signLength cs)) = 0 then 0
      else 1 + signLength cs + run Char.isDigit (cs.drop (signLength cs)) := by
  simp only [exponentLength, he, if_true]
  cases cs with
  | nil => rfl
  | cons d ds =>
      have hsign : (if d = '+' ∨ d = '-' then 1 else 0) = signLength (d :: ds) := rfl
      simp only [hsign]
      cases run Char.isDigit ((d :: ds).drop (signLength (d :: ds))) <;> rfl

theorem exponentLength_of_not {e : Char} {cs : Text} (he : ¬ (e = 'e' ∨ e = 'E')) :
    exponentLength (e :: cs) = 0 := by
  simp only [exponentLength, he, if_false]

theorem exponentLength_of_append_le {t v : Text} (h : exponentLength (t ++ v) ≤ t.length) :
    exponentLength (t ++ v) = exponentLength t := by
  cases t with
  | nil => exact Nat.le_zero.1 h
  | cons e cs =>
      by_cases he : e = 'e' ∨ e = 'E'
      · rw [List.cons_append, exponentLength_cons he] at h ⊢
        rw [exponentLength_cons he]
        cases cs with
        | nil =>
            have hzero : run Char.isDigit (([] ++ v).drop (signLength ([] ++ v))) = 0 := by
              apply Classical.byContradiction
              intro hne
              rw [if_neg hne] at h
              simp only [List.length_cons, List.length_nil] at h
              omega
            rw [if_pos hzero]
            rfl
        | cons d ds =>
            have hsign : signLength (d :: ds ++ v) = signLength (d :: ds) := rfl
            have hone := signLength_le_one (d :: ds)
            have hdrop : (d :: ds ++ v).drop (signLength (d :: ds)) =
                (d :: ds).drop (signLength (d :: ds)) ++ v :=
              List.drop_append_of_le_length (by simp only [List.length_cons]; omega)
            have hrun : run Char.isDigit ((d :: ds).drop (signLength (d :: ds)) ++ v) ≤
                ((d :: ds).drop (signLength (d :: ds))).length := by
              rw [hsign, hdrop] at h
              split at h
              · rename_i hzero
                rw [hzero]
                exact Nat.zero_le _
              · simp only [List.length_cons, List.length_drop] at h ⊢
                omega
            rw [hsign, hdrop, run_of_append_le hrun]
      · rw [List.cons_append, exponentLength_of_not he, exponentLength_of_not he]

theorem hexLength_cons {x : Char} {cs : Text} (hx : x = 'x' ∨ x = 'X') :
    hexLength ('0' :: x :: cs) =
      if run (fun c => isHexDigit c || c == '_') cs = 0 then 0
      else 2 + run (fun c => isHexDigit c || c == '_') cs := by
  rw [hexLength, if_pos hx]
  cases run (fun c => isHexDigit c || c == '_') cs <;> rfl

theorem hexLength_of_not {x : Char} {cs : Text} (hx : ¬ (x = 'x' ∨ x = 'X')) :
    hexLength ('0' :: x :: cs) = 0 := by
  rw [hexLength, if_neg hx]

theorem hexLength_of_ne {c : Char} {cs : Text} (hc : c ≠ '0') : hexLength (c :: cs) = 0 := by
  cases cs <;> simp [hexLength, hc]

theorem hexLength_of_append_le {t v : Text} (h : hexLength (t ++ v) ≤ t.length) :
    hexLength (t ++ v) = hexLength t := by
  cases t with
  | nil => exact Nat.le_zero.1 h
  | cons c cs =>
      by_cases hc : c = '0'
      · subst hc
        cases cs with
        | nil =>
            cases v with
            | nil => rfl
            | cons x xs =>
                by_cases hx : x = 'x' ∨ x = 'X'
                · rw [List.cons_append, List.nil_append, hexLength_cons hx] at h ⊢
                  split at h
                  · rename_i hzero
                    rw [if_pos hzero]
                    rfl
                  · simp only [List.length_cons, List.length_nil] at h
                    omega
                · rw [List.cons_append, List.nil_append, hexLength_of_not hx]
                  rfl
        | cons x xs =>
            by_cases hx : x = 'x' ∨ x = 'X'
            · rw [List.cons_append, List.cons_append, hexLength_cons hx] at h ⊢
              have hrun : run (fun c => isHexDigit c || c == '_') (xs ++ v) ≤ xs.length := by
                split at h
                · rename_i hzero
                  rw [hzero]
                  exact Nat.zero_le _
                · simp only [List.length_cons] at h
                  omega
              rw [run_of_append_le hrun, hexLength_cons hx]
            · rw [List.cons_append, List.cons_append, hexLength_of_not hx, hexLength_of_not hx]
      · rw [List.cons_append, hexLength_of_ne hc, hexLength_of_ne hc]

theorem decimalLength_of_append_le {t v : Text} (h : decimalLength (t ++ v) ≤ t.length) :
    decimalLength (t ++ v) = decimalLength t := by
  simp only [decimalLength] at h ⊢
  have hwhole : run isDigitMark (t ++ v) = run isDigitMark t := run_of_append_le (by omega)
  rw [hwhole] at h ⊢
  have hdrop : ∀ n, n ≤ t.length → (t ++ v).drop n = t.drop n ++ v := fun n hn =>
    List.drop_append_of_le_length hn
  rw [hdrop _ (by omega)] at h ⊢
  have hfraction := fractionLength_of_append_le (t := t.drop (run isDigitMark t)) (v := v)
    (by simp only [List.length_drop]; omega)
  rw [hfraction] at h ⊢
  rw [hdrop _ (by omega)] at h ⊢
  rw [exponentLength_of_append_le (by simp only [List.length_drop]; omega)]

theorem pointLexeme_digit {c : Char} {cs : Text} (hc : c.isDigit = true) :
    pointLexeme (c :: cs) =
      (.number, 1 + run isDigitMark (c :: cs) +
        exponentLength ((c :: cs).drop (run isDigitMark (c :: cs)))) := by
  have hne : c ≠ '.' := by
    rintro rfl
    exact absurd hc (by decide)
  unfold pointLexeme
  split
  · rename_i heq
    exact absurd (List.cons.inj heq).1 hne
  · rename_i heq
    obtain ⟨rfl, rfl⟩ := List.cons.inj heq
    rw [if_pos hc]
    simp only [Nat.add_sub_cancel_left]
  · contradiction

theorem pointLexeme_other {t : Text} (hdigit : ∀ c, t.head? = some c → c.isDigit = false)
    (hdots : ∀ cs, t ≠ '.' :: '.' :: cs) : pointLexeme t = (.punct, 1) := by
  unfold pointLexeme
  split
  · exact absurd rfl (hdots _)
  · rename_i c cs _
    rw [if_neg (by simp [hdigit c rfl])]
  · rfl

theorem pointLexeme_of_append {t v : Text} (h : (pointLexeme (t ++ v)).2 ≤ t.length + 1) :
    pointLexeme (t ++ v) = pointLexeme t := by
  by_cases hdigit : ∃ c cs, t ++ v = c :: cs ∧ c.isDigit = true
  · obtain ⟨c, cs, htext, hc⟩ := hdigit
    rw [htext, pointLexeme_digit hc, ← htext] at h
    rw [htext, pointLexeme_digit hc, ← htext]
    have hmark : 0 < run isDigitMark (t ++ v) := by
      rw [htext]
      exact run_pos cs (isDigitMark_of_isDigit hc)
    have hrun : run isDigitMark (t ++ v) = run isDigitMark t := run_of_append_le (by omega)
    cases t with
    | nil =>
        simp only [run, List.takeWhile_nil, List.length_nil] at hrun
        simp only [run] at hmark
        omega
    | cons d ds =>
        obtain ⟨rfl, -⟩ := List.cons.inj htext
        rw [hrun] at h
        have hdrop : (d :: ds ++ v).drop (run isDigitMark (d :: ds)) =
            (d :: ds).drop (run isDigitMark (d :: ds)) ++ v :=
          List.drop_append_of_le_length (by omega)
        rw [hdrop] at h
        rw [hrun, hdrop, exponentLength_of_append_le (by simp only [List.length_drop]; omega),
          pointLexeme_digit hc]
  · have hhead : ∀ c, (t ++ v).head? = some c → c.isDigit = false := by
      intro c hc
      obtain ⟨cs, hcs⟩ := List.head?_eq_some_iff.1 hc
      exact Bool.eq_false_iff.2 fun hd => hdigit ⟨c, cs, hcs, hd⟩
    by_cases hdots : ∃ cs, t ++ v = '.' :: '.' :: cs
    · obtain ⟨cs, hcs⟩ := hdots
      rw [hcs] at h ⊢
      have hlength : 2 ≤ t.length := by simpa [pointLexeme] using h
      obtain ⟨a, b, ds, rfl⟩ : ∃ a b ds, t = a :: b :: ds := by
        obtain _ | ⟨a, _ | ⟨b, ds⟩⟩ := t
        · simp at hlength
        · simp at hlength
        · exact ⟨a, b, ds, rfl⟩
      simp only [List.cons_append, List.cons.injEq] at hcs
      obtain ⟨rfl, rfl, -⟩ := hcs
      rfl
    · rw [pointLexeme_other hhead fun cs hcs => hdots ⟨cs, hcs⟩]
      symm
      apply pointLexeme_other
      · intro c hc
        apply hhead c
        rw [List.head?_append, hc]
        rfl
      · rintro cs rfl
        exact hdots ⟨_, rfl⟩

theorem slashLexeme?_of_append {t v : Text} {kind : LexemeKind} {n : Nat}
    (h : slashLexeme? (t ++ v) = some (kind, n)) (hn : n ≤ t.length + 1) :
    slashLexeme? t = some (kind, n) := by
  cases t with
  | nil =>
      unfold slashLexeme? at h
      split at h
      · simp only [Option.some.injEq, Prod.mk.injEq, List.length_nil] at h hn
        omega
      · obtain ⟨m, -, hm⟩ := Option.map_eq_some_iff.1 h
        simp only [Prod.mk.injEq, List.length_nil] at hm hn
        omega
      · exact h
  | cons d ds =>
      simp only [List.length_cons] at hn
      by_cases hslash : d = '/'
      · subst hslash
        simp only [List.cons_append, slashLexeme?, Option.some.injEq, Prod.mk.injEq] at h ⊢
        have hrun : run (· != '\n') (ds ++ v) = run (· != '\n') ds := run_of_append_le (by omega)
        exact ⟨h.1, by rw [← hrun, h.2]⟩
      · by_cases hstar : d = '*'
        · subst hstar
          simp only [List.cons_append, slashLexeme?] at h ⊢
          obtain ⟨m, hm, heq⟩ := Option.map_eq_some_iff.1 h
          simp only [Prod.mk.injEq] at heq
          rw [blockLength?_of_append hm (by omega)]
          simpa using heq
        · have hother : ∀ rest, slashLexeme? (d :: rest) = some (.token .punct, 1) := by
            intro rest
            unfold slashLexeme?
            split
            · rename_i heq
              exact absurd (List.cons.inj heq).1 hslash
            · rename_i heq
              exact absurd (List.cons.inj heq).1 hstar
            · rfl
          rw [List.cons_append, hother] at h
          rw [hother, h]

theorem firstLexeme?_of_append {t v : Text} {kind : LexemeKind} {n : Nat}
    (h : firstLexeme? (t ++ v) = some (kind, n)) (hn : n ≤ t.length) :
    firstLexeme? t = some (kind, n) := by
  cases t with
  | nil =>
      have := firstLexeme?_length_pos h
      simp only [List.length_nil] at hn
      omega
  | cons c cs =>
      simp only [List.cons_append, firstLexeme?, List.length_cons] at h hn ⊢
      split at h
      · rename_i hblank
        rw [if_pos hblank]
        simp only [Option.some.injEq, Prod.mk.injEq] at h ⊢
        have hrun : run isSkipped (cs ++ v) = run isSkipped cs := run_of_append_le (by omega)
        exact ⟨h.1, by rw [← hrun, h.2]⟩
      rename_i hblank
      rw [if_neg hblank]
      split at h
      · rename_i hident
        rw [if_pos hident]
        simp only [Option.some.injEq, Prod.mk.injEq] at h ⊢
        have hrun : run isIdentContinue (cs ++ v) = run isIdentContinue cs :=
          run_of_append_le (by omega)
        exact ⟨h.1, by rw [← hrun, h.2]⟩
      rename_i hident
      rw [if_neg hident]
      split at h
      · rename_i hdigit
        rw [if_pos hdigit]
        simp only [Option.some.injEq, Prod.mk.injEq] at h ⊢
        refine ⟨h.1, ?_⟩
        have hle := h.2 ▸ hn
        rw [← List.cons_append] at h hle
        rw [← h.2, decimalLength_of_append_le (by simp only [List.length_cons]; omega),
          hexLength_of_append_le (by simp only [List.length_cons]; omega)]
      rename_i hdigit
      rw [if_neg hdigit]
      split at h
      · rename_i hslash
        rw [if_pos hslash]
        exact slashLexeme?_of_append h hn
      rename_i hslash
      rw [if_neg hslash]
      split at h
      · rename_i hpoint
        rw [if_pos hpoint]
        simp only [Option.some.injEq, Prod.mk.injEq] at h ⊢
        have hpart : pointLexeme (cs ++ v) = pointLexeme cs := pointLexeme_of_append (by omega)
        rw [← hpart]
        exact h
      rename_i hpoint
      rw [if_neg hpoint]
      split at h
      · rename_i hquote
        rw [if_pos hquote]
        obtain ⟨m, hm, heq⟩ := Option.map_eq_some_iff.1 h
        simp only [Prod.mk.injEq] at heq
        have hc : c ≠ '\\' := by
          rintro rfl
          simp at hquote
        rw [quotedLength?_of_append hm (by omega) hc]
        simpa using heq
      rename_i hquote
      rw [if_neg hquote]
      split at h
      · rename_i htemplate
        rw [if_pos htemplate]
        obtain ⟨m, hm, heq⟩ := Option.map_eq_some_iff.1 h
        simp only [Prod.mk.injEq] at heq
        have hc : c ≠ '\\' := by
          rintro rfl
          simp at htemplate
        rw [quotedLength?_of_append hm (by omega) hc]
        simpa using heq
      · rename_i htemplate
        rw [if_neg htemplate]
        exact h

theorem fractionLength_le_length (t : Text) : fractionLength t ≤ t.length := by
  unfold fractionLength
  split
  · rename_i cs
    have := run_le_length isDigitMark cs
    simp only [List.length_cons]
    omega
  · exact Nat.zero_le _

theorem exponentLength_le_length (t : Text) : exponentLength t ≤ t.length := by
  cases t with
  | nil => exact Nat.le_refl 0
  | cons e cs =>
      by_cases he : e = 'e' ∨ e = 'E'
      · rw [exponentLength_cons he]
        split
        · exact Nat.zero_le _
        · rename_i hne
          have hrun := run_le_length Char.isDigit (cs.drop (signLength cs))
          simp only [List.length_drop, List.length_cons] at hrun ⊢
          omega
      · rw [exponentLength_of_not he]
        exact Nat.zero_le _

theorem decimalLength_le_length (t : Text) : decimalLength t ≤ t.length := by
  simp only [decimalLength]
  have hwhole := run_le_length isDigitMark t
  have hpart := fractionLength_le_length (t.drop (run isDigitMark t))
  have hexponent := exponentLength_le_length
    (t.drop (run isDigitMark t + fractionLength (t.drop (run isDigitMark t))))
  simp only [List.length_drop] at hpart hexponent
  omega

theorem hexLength_le_length (t : Text) : hexLength t ≤ t.length := by
  unfold hexLength
  split
  · rename_i cs
    split
    · have hrun := run_le_length (fun c => isHexDigit c || c == '_') cs
      split
      · exact Nat.zero_le _
      · simp only [List.length_cons]
        omega
    · exact Nat.zero_le _
  · exact Nat.zero_le _

theorem pointLexeme_le_length (t : Text) : (pointLexeme t).2 ≤ t.length + 1 := by
  unfold pointLexeme
  split
  · simp only [List.length_cons]
    omega
  · rename_i c cs _
    split
    · have hrun := run_le_length isDigitMark (c :: cs)
      have hexponent := exponentLength_le_length
        ((c :: cs).drop (1 + run isDigitMark (c :: cs) - 1))
      simp only [List.length_drop] at hexponent
      dsimp only
      omega
    · exact Nat.le_add_left 1 _
  · exact Nat.le_add_left 1 _

theorem slashLexeme?_le_length {t : Text} {kind : LexemeKind} {n : Nat}
    (h : slashLexeme? t = some (kind, n)) : n ≤ t.length + 1 := by
  unfold slashLexeme? at h
  split at h
  · rename_i rest
    have := run_le_length (· != '\n') rest
    simp only [Option.some.injEq, Prod.mk.injEq, List.length_cons] at h ⊢
    omega
  · obtain ⟨m, hm, heq⟩ := Option.map_eq_some_iff.1 h
    obtain ⟨body, rest, rfl, -, rfl⟩ := body_of_blockLength? hm
    simp only [Prod.mk.injEq, List.length_cons, List.length_append] at heq ⊢
    omega
  · simp only [Option.some.injEq, Prod.mk.injEq] at h
    omega

theorem firstLexeme?_le_length {t : Text} {kind : LexemeKind} {n : Nat}
    (h : firstLexeme? t = some (kind, n)) : n ≤ t.length := by
  cases t with
  | nil => cases h
  | cons c cs =>
      simp only [firstLexeme?, List.length_cons] at h ⊢
      have hquoted {k : LexemeKind}
          (h : (quotedLength? c cs).map (fun n => (k, 1 + n)) = some (kind, n)) :
          n ≤ cs.length + 1 := by
        obtain ⟨m, hm, heq⟩ := Option.map_eq_some_iff.1 h
        obtain ⟨body, rest, rfl, -, rfl⟩ := body_of_quotedLength? hm
        simp only [Prod.mk.injEq, List.length_cons, List.length_append] at heq ⊢
        omega
      split at h
      · have := run_le_length isSkipped cs
        simp only [Option.some.injEq, Prod.mk.injEq] at h
        omega
      split at h
      · have := run_le_length isIdentContinue cs
        simp only [Option.some.injEq, Prod.mk.injEq] at h
        omega
      split at h
      · have hdecimal := decimalLength_le_length (c :: cs)
        have hhex := hexLength_le_length (c :: cs)
        simp only [Option.some.injEq, Prod.mk.injEq, List.length_cons] at h hdecimal hhex
        omega
      split at h
      · exact slashLexeme?_le_length h
      split at h
      · have := pointLexeme_le_length cs
        simp only [Option.some.injEq, Prod.mk.injEq] at h
        omega
      split at h
      · exact hquoted h
      split at h
      · exact hquoted h
      · obtain ⟨kind', -, heq⟩ := Option.map_eq_some_iff.1 h
        simp only [Prod.mk.injEq] at heq
        omega

end PugSize.Script
