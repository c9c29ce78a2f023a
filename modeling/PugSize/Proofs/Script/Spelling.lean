import PugSize.Proofs.Script.Joins
import PugSize.Proofs.Script.LexemeClass

/-!
How lexemes are spelled. Comments and literals are told from their delimiters, brackets, commas and
colons are single characters, and all other tokens consist of neutral characters or are a slash.
-/

namespace PugSize.Script

inductive Spelling : LexemeKind → Text → Prop
  | lineComment {body : Text} (h : '\n' ∉ body) :
      Spelling (.trivia .lineComment) ('/' :: '/' :: body)
  | blockComment {body : Text} (h : BlockBody body) :
      Spelling (.trivia .blockComment) ('/' :: '*' :: body ++ ['*', '/'])
  | quoted {quote : Char} {body : Text} {kind : TokenKind} (hquote : quoteKind? quote = some kind)
      (h : QuotedBody quote body) : Spelling (.token kind) (quote :: body ++ [quote])
  | mark {c : Char} {kind : TokenKind} (h : markKind? c = some kind) : Spelling (.token kind) [c]
  | slash : Spelling (.token .punct) ['/']
  | word {kind : TokenKind} {t : Text} (hkind : kind ∈ [.number, .ident, .spread, .punct])
      (hne : t ≠ []) (h : ∀ c ∈ t, isNeutral c = true) : Spelling (.token kind) t

/-- A character of a number. -/
def isNumeric (c : Char) : Bool := isIdentContinue c || c ∈ ['.', '+', '-']

theorem isNeutral_of_isNumeric {c : Char} (h : isNumeric c = true) : isNeutral c = true := by
  simp only [isNumeric, Bool.or_eq_true, decide_eq_true_eq, List.mem_cons, List.not_mem_nil,
    or_false] at h
  obtain h | rfl | rfl | rfl := h
  · exact isNeutral_of_isIdentContinue h
  all_goals decide

theorem isNumeric_of_isIdentContinue {c : Char} (h : isIdentContinue c = true) :
    isNumeric c = true := by
  simp [isNumeric, h]

theorem isNumeric_of_isDigit {c : Char} (h : c.isDigit = true) : isNumeric c = true :=
  isNumeric_of_isIdentContinue (isIdentContinue_of_isDigit h)

theorem isNumeric_of_isDigitMark {c : Char} (h : isDigitMark c = true) : isNumeric c = true :=
  isNumeric_of_isIdentContinue (isIdentContinue_of_isDigitMark h)

theorem Fraction.isNumeric {t : Text} (h : Fraction t) : ∀ c ∈ t, isNumeric c = true := by
  cases h with
  | none => exact nofun
  | point h => exact List.forall_mem_cons.2 ⟨by decide, fun c hc => isNumeric_of_isDigitMark (h c hc)⟩

theorem Exponent.isNumeric {t : Text} (h : Exponent t) : ∀ c ∈ t, isNumeric c = true := by
  cases h with
  | none => exact nofun
  | @power e sign digits letter hsign filled h =>
      have hletter : Script.isNumeric e = true := by obtain rfl | rfl := letter <;> decide
      refine List.forall_mem_cons.2 ⟨hletter, List.forall_mem_append.2 ⟨?_, ?_⟩⟩
      · simp only [List.mem_cons, List.not_mem_nil, or_false] at hsign
        obtain rfl | rfl | rfl := hsign <;> exact List.all_eq_true.1 (by decide)
      · exact fun c hc => isNumeric_of_isDigit (h c hc)

theorem spelling_of_numeric {t : Text} (hne : t ≠ []) (h : ∀ c ∈ t, isNumeric c = true) :
    Spelling (.token .number) t :=
  .word (by decide) hne fun c hc => isNeutral_of_isNumeric (h c hc)

theorem quoteKind?_eq_some {c : Char} {kind : TokenKind} (h : quoteKind? c = some kind) :
    (c = '"' ∨ c = '\'') ∧ kind = .str ∨ c = '\x60' ∧ kind = .template := by
  unfold quoteKind? at h
  split at h
  · rename_i hc
    exact .inl ⟨hc, by simpa using h.symm⟩
  · split at h
    · rename_i hc
      exact .inr ⟨hc, by simpa using h.symm⟩
    · cases h

theorem markKind?_eq_some {c : Char} {kind : TokenKind} (h : markKind? c = some kind) :
    (c, kind) ∈ [('(', TokenKind.lparen), (')', .rparen), ('[', .lbracket), (']', .rbracket),
      ('{', .lbrace), ('}', .rbrace), (',', .comma), (':', .colon)] := by
  unfold markKind? at h
  split at h
  case h_9 => cases h
  all_goals
    cases h
    decide

theorem InClass.numeric {t : Text} (h : InClass (.token .number) t) : t ≠ [] ∧ ∀ c ∈ t, isNumeric c = true := by
  cases h with
  | quoted hquote h =>
      obtain ⟨-, hkind⟩ | ⟨-, hkind⟩ := quoteKind?_eq_some hquote <;> cases hkind
  | decimal first h hfraction hexponent =>
      refine ⟨by simp, List.forall_mem_append.2 ⟨?_, hexponent.isNumeric⟩⟩
      refine List.forall_mem_append.2 ⟨List.forall_mem_cons.2 ⟨?_, ?_⟩, hfraction.isNumeric⟩
      · exact isNumeric_of_isDigit first
      · exact fun d hd => isNumeric_of_isDigitMark (h d hd)
  | point first h hexponent =>
      refine ⟨by simp, List.forall_mem_append.2 ⟨?_, hexponent.isNumeric⟩⟩
      refine List.forall_mem_cons.2 ⟨by decide, List.forall_mem_cons.2 ⟨?_, ?_⟩⟩
      · exact isNumeric_of_isDigit first
      · exact fun d hd => isNumeric_of_isDigitMark (h d hd)
  | hexadecimal letter filled h =>
      have hletter : ∀ x, x = 'x' ∨ x = 'X' → isNumeric x = true := by
        rintro x (rfl | rfl) <;> decide
      refine ⟨by simp, List.forall_mem_cons.2 ⟨by decide, ?_⟩⟩
      refine List.forall_mem_cons.2 ⟨hletter _ letter, fun c hc => ?_⟩
      exact isNumeric_of_isIdentContinue (isIdentContinue_of_isHexMark (h c hc))
  | mark h => simpa using markKind?_eq_some h

theorem InClass.spelling {kind : LexemeKind} {t : Text} (h : InClass kind t)
    (hkind : kind ≠ .trivia .blank) : Spelling kind t := by
  cases h with
  | blank => exact absurd rfl hkind
  | lineComment h => exact .lineComment h
  | blockComment h => exact .blockComment h
  | quoted hquote h => exact .quoted hquote h
  | ident first h =>
      refine .word (by decide) (by simp) (List.forall_mem_cons.2 ⟨?_, ?_⟩)
      · exact isNeutral_of_isIdentContinue (isIdentContinue_of_isIdentStart first)
      · exact fun d hd => isNeutral_of_isIdentContinue (h d hd)
  | decimal first h hfraction hexponent =>
      obtain ⟨hne, hall⟩ := (InClass.decimal first h hfraction hexponent).numeric
      exact spelling_of_numeric hne hall
  | point first h hexponent =>
      obtain ⟨hne, hall⟩ := (InClass.point first h hexponent).numeric
      exact spelling_of_numeric hne hall
  | hexadecimal letter filled h =>
      obtain ⟨hne, hall⟩ := (InClass.hexadecimal letter filled h).numeric
      exact spelling_of_numeric hne hall
  | mark h => exact .mark h
  | spread => exact .word (by decide) (by simp) (List.all_eq_true.1 (by decide))
  | @punct c h =>
      by_cases hslash : c = '/'
      · subst hslash
        exact .slash
      · refine .word (by decide) (by simp) ?_
        intro d hd
        obtain rfl := List.mem_singleton.1 hd
        have hall : (".;?!~%^&|*/+-<>=@#".toList.all fun e => e == '/' || isNeutral e) = true := by
          decide
        simpa [hslash] using List.all_eq_true.1 hall d (by simpa [isPunct] using h)

theorem spelling_of_firstLexeme? {t : Text} {kind : LexemeKind}
    (h : firstLexeme? t = some (kind, t.length)) (hkind : kind ≠ .trivia .blank) :
    Spelling kind t := by
  have hclass := inClass_of_firstLexeme? h
  rw [List.take_length] at hclass
  exact hclass.spelling hkind

end PugSize.Script
