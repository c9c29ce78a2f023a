import Mathlib.Data.List.TakeWhile
import PugSize.Proofs.Script.Cuts

/-!
The classes that lexemes come from, each told by the texts in it. What stands at the front of a text and
is cut off there as a lexeme is in the class of its kind.
-/

namespace PugSize.Script

/-- The kind of literal that a quote begins. -/
def quoteKind? (c : Char) : Option TokenKind :=
  if c = '"' ∨ c = '\'' then some .str else if c = '\x60' then some .template else none

/-- The kind of a bracket, a comma or a colon. -/
def markKind? (c : Char) : Option TokenKind :=
  match c with
  | '(' => some .lparen
  | ')' => some .rparen
  | '[' => some .lbracket
  | ']' => some .rbracket
  | '{' => some .lbrace
  | '}' => some .rbrace
  | ',' => some .comma
  | ':' => some .colon
  | _ => none

/-- A point with digits behind it, or nothing. -/
inductive Fraction : Text → Prop
  | none : Fraction []
  | point {marks : Text} (h : ∀ c ∈ marks, isDigitMark c = true) : Fraction ('.' :: marks)

/-- A decimal exponent, or nothing. -/
inductive Exponent : Text → Prop
  | none : Exponent []
  | power {e : Char} {sign digits : Text} (letter : e = 'e' ∨ e = 'E')
      (hsign : sign ∈ [[], ['+'], ['-']]) (filled : digits ≠ [])
      (h : ∀ c ∈ digits, c.isDigit = true) : Exponent (e :: (sign ++ digits))

def isHexMark (c : Char) : Bool := isHexDigit c || c == '_'

/-- The texts of every kind of lexeme. -/
inductive InClass : LexemeKind → Text → Prop
  | blank {c : Char} {cs : Text} (first : isSkipped c = true) (h : ∀ d ∈ cs, isSkipped d = true) :
      InClass (.trivia .blank) (c :: cs)
  | lineComment {body : Text} (h : '\n' ∉ body) : InClass (.trivia .lineComment) ('/' :: '/' :: body)
  | blockComment {body : Text} (h : BlockBody body) :
      InClass (.trivia .blockComment) ('/' :: '*' :: body ++ ['*', '/'])
  | quoted {quote : Char} {body : Text} {kind : TokenKind} (hquote : quoteKind? quote = some kind)
      (h : QuotedBody quote body) : InClass (.token kind) (quote :: body ++ [quote])
  | ident {c : Char} {cs : Text} (first : isIdentStart c = true)
      (h : ∀ d ∈ cs, isIdentContinue d = true) : InClass (.token .ident) (c :: cs)
  | decimal {c : Char} {cs fraction exponent : Text} (first : c.isDigit = true)
      (h : ∀ d ∈ cs, isDigitMark d = true) (hfraction : Fraction fraction)
      (hexponent : Exponent exponent) : InClass (.token .number) (c :: cs ++ fraction ++ exponent)
  | point {c : Char} {cs exponent : Text} (first : c.isDigit = true)
      (h : ∀ d ∈ cs, isDigitMark d = true) (hexponent : Exponent exponent) :
      InClass (.token .number) ('.' :: c :: cs ++ exponent)
  | hexadecimal {x : Char} {digits : Text} (letter : x = 'x' ∨ x = 'X') (filled : digits ≠ [])
      (h : ∀ c ∈ digits, isHexMark c = true) : InClass (.token .number) ('0' :: x :: digits)
  | mark {c : Char} {kind : TokenKind} (h : markKind? c = some kind) : InClass (.token kind) [c]
  | spread : InClass (.token .spread) ['.', '.', '.']
  | punct {c : Char} (h : isPunct c = true) : InClass (.token .punct) [c]

theorem take_run (p : Char → Bool) (t : Text) : t.take (run p t) = t.takeWhile p :=
  (List.prefix_iff_eq_take.1 (List.takeWhile_prefix p)).symm

theorem fraction_take (t : Text) : Fraction (t.take (fractionLength t)) := by
  unfold fractionLength
  split
  · rename_i cs
    rw [Nat.add_comm, List.take_succ_cons, take_run]
    exact .point fun c hc => List.mem_takeWhile_imp hc
  · rw [List.take_zero]
    exact .none

theorem sign_take (t : Text) : t.take (signLength t) ∈ [[], ['+'], ['-']] := by
  unfold signLength
  split
  · split
    · rename_i s cs hs
      obtain rfl | rfl := hs <;> simp
    · simp
  · simp

theorem exponent_take (t : Text) : Exponent (t.take (exponentLength t)) := by
  cases t with
  | nil => exact .none
  | cons e cs =>
      by_cases he : e = 'e' ∨ e = 'E'
      · rw [exponentLength_cons he]
        split
        · exact .none
        · rename_i hdigits
          have hfilled : (cs.drop (signLength cs)).takeWhile Char.isDigit ≠ [] := by
            rwa [ne_eq, ← List.length_eq_zero_iff]
          rw [Nat.add_assoc, Nat.add_comm, List.take_succ_cons, List.take_add, take_run]
          exact .power he (sign_take cs) hfilled fun c hc => List.mem_takeWhile_imp hc
      · rw [exponentLength_of_not he]
        exact .none

theorem inClass_decimal {c : Char} (cs : Text) (hc : c.isDigit = true) :
    InClass (.token .number) ((c :: cs).take (decimalLength (c :: cs))) := by
  simp only [decimalLength]
  rw [List.take_add, List.take_add, take_run, List.takeWhile_cons_of_pos (isDigitMark_of_isDigit hc)]
  exact .decimal hc (fun d hd => List.mem_takeWhile_imp hd) (fraction_take _) (exponent_take _)

theorem inClass_hex {t : Text} (h : hexLength t ≠ 0) :
    InClass (.token .number) (t.take (hexLength t)) := by
  match t with
  | [] => exact absurd rfl h
  | [c] => exact absurd (by cases hc : c == '0' <;> simp_all [hexLength]) h
  | c :: x :: cs =>
      by_cases hc : c = '0'
      · subst hc
        by_cases hx : x = 'x' ∨ x = 'X'
        · rw [hexLength_cons hx] at h ⊢
          split at h
          · exact absurd rfl h
          · rename_i hdigits
            rw [if_neg hdigits, Nat.add_comm, List.take_succ_cons, List.take_succ_cons, take_run]
            have hfilled : cs.takeWhile isHexMark ≠ [] := by
              rwa [ne_eq, ← List.length_eq_zero_iff]
            exact .hexadecimal hx hfilled fun d hd => List.mem_takeWhile_imp hd
        · exact absurd (hexLength_of_not hx) h
      · exact absurd (hexLength_of_ne hc) h

theorem inClass_point {cs : Text} {kind : TokenKind} {n : Nat} (h : pointLexeme cs = (kind, n)) :
    InClass (.token kind) (('.' :: cs).take n) := by
  by_cases hdigit : ∃ c ds, cs = c :: ds ∧ c.isDigit = true
  · obtain ⟨c, ds, rfl, hc⟩ := hdigit
    rw [pointLexeme_digit hc, Prod.mk.injEq] at h
    obtain ⟨rfl, rfl⟩ := h
    rw [Nat.add_assoc, Nat.add_comm, List.take_succ_cons, List.take_add, take_run,
      List.takeWhile_cons_of_pos (isDigitMark_of_isDigit hc)]
    exact .point hc (fun d hd => List.mem_takeWhile_imp hd) (exponent_take _)
  · by_cases hdots : ∃ ds, cs = '.' :: '.' :: ds
    · obtain ⟨ds, rfl⟩ := hdots
      cases h
      exact .spread
    · have hother : pointLexeme cs = (.punct, 1) := by
        apply pointLexeme_other
        · intro c hc
          obtain ⟨ds, rfl⟩ := List.head?_eq_some_iff.1 hc
          exact Bool.eq_false_iff.2 fun hd => hdigit ⟨c, ds, rfl, hd⟩
        · rintro ds rfl
          exact hdots ⟨ds, rfl⟩
      rw [hother] at h
      cases h
      exact .punct (by decide)

theorem inClass_slash {cs : Text} {kind : LexemeKind} {n : Nat} (h : slashLexeme? cs = some (kind, n)) :
    InClass kind (('/' :: cs).take n) := by
  unfold slashLexeme? at h
  split at h
  · rename_i rest
    cases h
    rw [Nat.add_comm, List.take_succ_cons, List.take_succ_cons, take_run]
    refine .lineComment fun hmem => ?_
    have := List.mem_takeWhile_imp hmem
    simp at this
  · obtain ⟨m, hm, heq⟩ := Option.map_eq_some_iff.1 h
    obtain ⟨body, rest, rfl, hbody, rfl⟩ := body_of_blockLength? hm
    cases heq
    have htake : ('/' :: '*' :: (body ++ '*' :: '/' :: rest)).take (2 + (body.length + 2)) =
        '/' :: '*' :: body ++ ['*', '/'] := by
      rw [Nat.add_comm, List.take_succ_cons, List.take_succ_cons, List.take_add]
      simp
    rw [htake]
    exact .blockComment hbody
  · cases h
    exact .punct (by decide)

theorem inClass_quoted {c : Char} {cs : Text} {kind : TokenKind} {k : LexemeKind} {n : Nat}
    (hc : quoteKind? c = some kind)
    (h : (quotedLength? c cs).map (fun n => (LexemeKind.token kind, 1 + n)) = some (k, n)) :
    InClass k ((c :: cs).take n) := by
  obtain ⟨m, hm, heq⟩ := Option.map_eq_some_iff.1 h
  obtain ⟨body, rest, rfl, hbody, rfl⟩ := body_of_quotedLength? hm
  cases heq
  have htake : (c :: (body ++ c :: rest)).take (1 + (body.length + 1)) = c :: body ++ [c] := by
    rw [Nat.add_comm, List.take_succ_cons, List.take_add]
    simp
  rw [htake]
  exact .quoted hc hbody

theorem inClass_single {c : Char} {kind : TokenKind} (h : singleKind? c = some kind) :
    InClass (.token kind) [c] := by
  unfold singleKind? at h
  split at h
  case h_9 =>
    split at h
    · rename_i hpunct
      cases h
      exact .punct hpunct
    · cases h
  all_goals exact .mark h

/-- What a text is cut at is in the class of its kind. -/
theorem inClass_of_firstLexeme? {t : Text} {kind : LexemeKind} {n : Nat}
    (h : firstLexeme? t = some (kind, n)) : InClass kind (t.take n) := by
  cases t with
  | nil => cases h
  | cons c cs =>
      simp only [firstLexeme?] at h
      split at h
      · rename_i hblank
        cases h
        rw [Nat.add_comm, List.take_succ_cons, take_run]
        exact .blank hblank fun d hd => List.mem_takeWhile_imp hd
      split at h
      · rename_i hident
        cases h
        rw [Nat.add_comm, List.take_succ_cons, take_run]
        exact .ident hident fun d hd => List.mem_takeWhile_imp hd
      split at h
      · rename_i hdigit
        cases h
        obtain hle | hlt := Nat.lt_or_ge (decimalLength (c :: cs)) (hexLength (c :: cs))
        · rw [Nat.max_eq_right (Nat.le_of_lt hle)]
          exact inClass_hex (by omega)
        · rw [Nat.max_eq_left hlt]
          exact inClass_decimal cs hdigit
      split at h
      · rename_i hslash
        subst hslash
        exact inClass_slash h
      split at h
      · rename_i hpoint
        subst hpoint
        cases h
        exact inClass_point rfl
      split at h
      · rename_i hquote
        exact inClass_quoted (if_pos hquote) h
      rename_i hquote
      split at h
      · rename_i htemplate
        exact inClass_quoted ((if_neg hquote).trans (if_pos htemplate)) h
      · obtain ⟨kind', hkind, heq⟩ := Option.map_eq_some_iff.1 h
        cases heq
        exact inClass_single hkind

end PugSize.Script
