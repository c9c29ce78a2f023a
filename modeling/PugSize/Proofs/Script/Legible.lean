import Mathlib.Data.List.TakeWhile
import PugSize.Script.Token
import PugSize.Proofs.Script.Spelling

/-!
Texts as lists of lexemes. White space is taken one character at a time, so that pieces of text can
be put together and cut apart without regard to it. A text has tokens if and only if it is written
with lexemes each of which stands before the rest, and the tokens are those of the lexemes.
-/

namespace PugSize.Script

namespace Lexeme

/-- Whether a lexeme is what the text is cut into where the lexeme is followed by `rest`. -/
def Stands (l : Lexeme) (rest : Text) : Prop :=
  if l.kind = .trivia .blank then ∃ c, l.text = [c] ∧ isSkipped c = true
  else firstLexeme? (l.text ++ rest) = some (l.kind, l.text.length)

theorem stands_blank {l : Lexeme} {rest : Text} (hkind : l.kind = .trivia .blank) :
    l.Stands rest ↔ ∃ c, l.text = [c] ∧ isSkipped c = true := by
  rw [Stands, if_pos hkind]

theorem stands_other {l : Lexeme} {rest : Text} (hkind : l.kind ≠ .trivia .blank) :
    l.Stands rest ↔ firstLexeme? (l.text ++ rest) = some (l.kind, l.text.length) := by
  rw [Stands, if_neg hkind]

theorem Stands.ne_nil {l : Lexeme} {rest : Text} (h : l.Stands rest) : l.text ≠ [] := by
  by_cases hkind : l.kind = .trivia .blank
  · obtain ⟨c, hc, -⟩ := (stands_blank hkind).1 h
    rw [hc]
    simp
  · have := firstLexeme?_length_pos ((stands_other hkind).1 h)
    exact List.length_pos_iff.1 this

theorem Stands.alone {l : Lexeme} {rest : Text} (h : l.Stands rest)
    (hkind : l.kind ≠ .trivia .blank) : firstLexeme? l.text = some (l.kind, l.text.length) :=
  firstLexeme?_of_append ((stands_other hkind).1 h) (Nat.le_refl _)

theorem Stands.spelling {l : Lexeme} {rest : Text} (h : l.Stands rest)
    (hkind : l.kind ≠ .trivia .blank) : Spelling l.kind l.text :=
  spelling_of_firstLexeme? (h.alone hkind) hkind

/-- A token stands before every text that goes on with none. -/
theorem Stands.apart {l : Lexeme} {rest rest' : Text} {kind : TokenKind} (h : l.Stands rest)
    (hkind : l.kind = .token kind) (happart : Apart rest')
    (hslash : l.text = ['/'] → rest'.head? ≠ some '/') : l.Stands rest' := by
  have hne : l.kind ≠ .trivia .blank := by
    rw [hkind]
    exact nofun
  rw [stands_other hne, hkind]
  have halone := h.alone hne
  rw [hkind] at halone
  exact firstLexeme?_append halone happart hslash

end Lexeme

theorem firstLexeme?_quoted {quote : Char} {body : Text} {kind : TokenKind}
    (hquote : quoteKind? quote = some kind) (h : QuotedBody quote body) (rest : Text) :
    firstLexeme? (quote :: body ++ quote :: rest) = some (.token kind, body.length + 2) := by
  have hlength (hne : quote ≠ '\\') := quotedLength?_of_body h hne rest
  obtain ⟨rfl | rfl, rfl⟩ | ⟨rfl, rfl⟩ := quoteKind?_eq_some hquote
  all_goals
    rw [List.cons_append, firstLexeme?, if_neg (by decide), if_neg (by decide), if_neg (by decide),
      if_neg (by decide), if_neg (by decide)]
  · rw [if_pos (by decide), hlength (by decide), Option.map_some, Nat.add_comm 1]
  · rw [if_pos (by decide), hlength (by decide), Option.map_some, Nat.add_comm 1]
  · rw [if_neg (by decide), if_pos (by decide), hlength (by decide), Option.map_some, Nat.add_comm 1]

theorem firstLexeme?_mark {c : Char} {kind : TokenKind} (h : markKind? c = some kind) (rest : Text) :
    firstLexeme? (c :: rest) = some (.token kind, 1) := by
  have hmem := markKind?_eq_some h
  simp only [List.mem_cons, Prod.mk.injEq, List.not_mem_nil, or_false] at hmem
  obtain ⟨rfl, rfl⟩ | ⟨rfl, rfl⟩ | ⟨rfl, rfl⟩ | ⟨rfl, rfl⟩ | ⟨rfl, rfl⟩ | ⟨rfl, rfl⟩ | ⟨rfl, rfl⟩ |
    ⟨rfl, rfl⟩ := hmem
  all_goals
    rw [firstLexeme?, if_neg (by decide), if_neg (by decide), if_neg (by decide), if_neg (by decide),
      if_neg (by decide), if_neg (by decide), if_neg (by decide)]
    rfl

theorem firstLexeme?_digit {c : Char} (cs : Text) (hc : c.isDigit = true) :
    firstLexeme? (c :: cs) =
      some (.token .number, max (decimalLength (c :: cs)) (hexLength (c :: cs))) := by
  have hcontinue := isIdentContinue_of_isDigit hc
  have hskipped : isSkipped c ≠ true := by
    intro hs
    rw [isIdentContinue_of_isSeparator (isSeparator_of_isSkipped hs)] at hcontinue
    cases hcontinue
  have hstart : isIdentStart c ≠ true := by
    have hall : ∀ n, n < 10 → isIdentStart (Char.ofNat (48 + n)) ≠ true := by decide
    have hrange : 48 ≤ c.toNat ∧ c.toNat ≤ 57 := by
      simpa [Char.isDigit, UInt32.le_iff_toNat_le] using hc
    have := hall (c.toNat - 48) (by omega)
    rwa [Nat.add_sub_cancel' hrange.1, Char.ofNat_toNat] at this
  rw [firstLexeme?, if_neg hskipped, if_neg hstart, if_pos hc]

theorem firstLexeme?_blockComment {body : Text} (h : BlockBody body) (rest : Text) :
    firstLexeme? ('/' :: '*' :: body ++ '*' :: '/' :: rest) =
      some (.trivia .blockComment, body.length + 4) := by
  rw [List.cons_append, List.cons_append, firstLexeme?, if_neg (by decide), if_neg (by decide),
    if_neg (by decide), if_pos rfl, slashLexeme?, blockLength?_of_body h, Option.map_some,
    Nat.add_comm 2]

theorem firstLexeme?_lineComment {body rest : Text} (h : '\n' ∉ body)
    (hrest : ∀ c, rest.head? = some c → c = '\n') :
    firstLexeme? ('/' :: '/' :: body ++ rest) = some (.trivia .lineComment, body.length + 2) := by
  have hrun : run (· != '\n') (body ++ rest) = body.length := by
    rw [run_append (.inr fun c hc => by simp [hrest c hc])]
    have hall : body.takeWhile (· != '\n') = body :=
      List.takeWhile_eq_self_iff.2 fun c hc => by simpa using fun heq : c = '\n' => h (heq ▸ hc)
    rw [run, hall]
  rw [List.cons_append, List.cons_append, firstLexeme?, if_neg (by decide), if_neg (by decide),
    if_neg (by decide), if_pos rfl, slashLexeme?, hrun, Nat.add_comm 2]

namespace Lexeme

/-- Whether nothing that follows can change a lexeme. -/
def isClosed (l : Lexeme) : Bool :=
  l.kind ∈ [.trivia .blank, .trivia .blockComment, .token .str, .token .template, .token .lparen,
    .token .rparen, .token .lbracket, .token .rbracket, .token .lbrace, .token .rbrace,
    .token .comma, .token .colon]

theorem Stands.closed {l : Lexeme} {rest rest' : Text} (h : l.Stands rest)
    (hclosed : l.isClosed = true) : l.Stands rest' := by
  by_cases hkind : l.kind = .trivia .blank
  · rw [stands_blank hkind] at h ⊢
    exact h
  rw [stands_other hkind]
  have hspelling := h.spelling hkind
  obtain ⟨kind, text⟩ := l
  simp only at hspelling hclosed ⊢
  cases hspelling with
  | lineComment h => simp [isClosed] at hclosed
  | blockComment hbody =>
      have := firstLexeme?_blockComment hbody rest'
      simpa using this
  | quoted hquote hbody =>
      have := firstLexeme?_quoted hquote hbody rest'
      simpa using this
  | mark hmark => exact firstLexeme?_mark hmark rest'
  | slash => simp [isClosed] at hclosed
  | word hword hne h =>
      simp only [List.mem_cons, List.not_mem_nil, or_false] at hword
      obtain rfl | rfl | rfl | rfl := hword <;> simp [isClosed] at hclosed

end Lexeme

/-- The text that lexemes make up. -/
def written (ls : List Lexeme) : Text := ls.flatMap Lexeme.text

@[simp] theorem written_nil : written [] = [] := rfl

@[simp] theorem written_cons (l : Lexeme) (ls : List Lexeme) :
    written (l :: ls) = l.text ++ written ls := List.flatMap_cons

@[simp] theorem written_append (as bs : List Lexeme) :
    written (as ++ bs) = written as ++ written bs := List.flatMap_append

/-- Whether each of some lexemes stands before the later ones and the text behind them. -/
def Legible : List Lexeme → Text → Prop
  | [], _ => True
  | l :: ls, after => l.Stands (written ls ++ after) ∧ Legible ls after

theorem legible_append {as bs : List Lexeme} {after : Text} :
    Legible (as ++ bs) after ↔ Legible as (written bs ++ after) ∧ Legible bs after := by
  induction as with
  | nil => simp [Legible]
  | cons a as ih => simp [Legible, ih, and_assoc]

theorem Legible.mem {ls : List Lexeme} {after : Text} (h : Legible ls after) {l : Lexeme}
    (hl : l ∈ ls) : ∃ rest, l.Stands rest := by
  obtain ⟨as, bs, rfl⟩ := List.append_of_mem hl
  exact ⟨_, (legible_append.1 h).2.1⟩

/-- Whether a lexeme is white space. -/
def Lexeme.isBlank (l : Lexeme) : Bool := l.kind == .trivia .blank

theorem firstLexeme?_skipped {c : Char} (cs : Text) (hc : isSkipped c = true) :
    firstLexeme? (c :: cs) = some (.trivia .blank, 1 + run isSkipped cs) := by
  rw [firstLexeme?, if_pos hc]

theorem isSkipped_of_firstLexeme? {c : Char} {cs : Text} {n : Nat}
    (h : firstLexeme? (c :: cs) = some (.trivia .blank, n)) : isSkipped c = true := by
  simp only [firstLexeme?] at h
  split at h
  · assumption
  split at h
  · simp at h
  split at h
  · simp at h
  split at h
  · unfold slashLexeme? at h
    split at h <;> simp at h
  split at h
  · simp at h
  split at h
  · simp at h
  split at h <;> simp at h

theorem scan_of_firstLexeme? {t : Text} {kind : LexemeKind} {n : Nat}
    (h : firstLexeme? t = some (kind, n)) :
    scan t = (⟨kind, t.take n⟩ :: (scan (t.drop n)).1, (scan (t.drop n)).2) := by
  rw [scan.eq_def]
  split
  · rename_i hnone
    rw [h] at hnone
    cases hnone
  · rename_i kind' n' hsome
    rw [h] at hsome
    cases hsome
    rfl

theorem scan_eq_nil {t : Text} (h : firstLexeme? t = none) : scan t = ([], t) := by
  rw [scan.eq_def]
  split
  · rfl
  · rename_i hsome
    rw [h] at hsome
    cases hsome

/-- What two readings of a text have in common: the tokens and the lexemes that are not blank. -/
def SameTokens (offset : Nat) (as : List Lexeme) (offset' : Nat) (bs : List Lexeme) : Prop :=
  Token.ofLexemes offset as = Token.ofLexemes offset' bs ∧
    as.filter (!Lexeme.isBlank ·) = bs.filter (!Lexeme.isBlank ·)

/-- A character of white space in front changes nothing but offsets. -/
theorem scan_skipped {c : Char} (cs : Text) (hc : isSkipped c = true) (offset : Nat) :
    (scan (c :: cs)).2 = (scan cs).2 ∧
      SameTokens offset (scan (c :: cs)).1 (offset + c.utf8Size) (scan cs).1 := by
  rw [scan_of_firstLexeme? (firstLexeme?_skipped cs hc), Nat.add_comm 1, List.take_succ_cons,
    List.drop_succ_cons]
  cases cs with
  | nil => simp [run, SameTokens, Token.ofLexemes, Lexeme.isBlank]
  | cons d ds =>
      by_cases hd : isSkipped d = true
      · have hrun : run isSkipped (d :: ds) = run isSkipped ds + 1 := by simp [run, hd]
        rw [scan_of_firstLexeme? (firstLexeme?_skipped ds hd), hrun, Nat.add_comm 1,
          List.take_succ_cons, List.drop_succ_cons]
        simp [SameTokens, Token.ofLexemes, Lexeme.isBlank, Nat.add_assoc]
      · have hrun : run isSkipped (d :: ds) = 0 := by simp [run, hd]
        rw [hrun, List.drop_zero, List.take_zero]
        simp [SameTokens, Token.ofLexemes, Lexeme.isBlank]

theorem scan_stands {l : Lexeme} {rest : Text} (h : l.Stands rest)
    (hkind : l.kind ≠ .trivia .blank) :
    scan (l.text ++ rest) = (l :: (scan rest).1, (scan rest).2) := by
  rw [scan_of_firstLexeme? ((Lexeme.stands_other hkind).1 h), List.take_left, List.drop_left]

theorem scan_of_legible {ls : List Lexeme} (h : Legible ls []) (offset : Nat) :
    (scan (written ls)).2 = [] ∧ SameTokens offset (scan (written ls)).1 offset ls := by
  induction ls generalizing offset with
  | nil =>
      have hscan : scan [] = ([], []) := scan_eq_nil rfl
      simp [hscan, SameTokens]
  | cons l ls ih =>
      obtain ⟨hl, hls⟩ := h
      rw [List.append_nil] at hl
      obtain ⟨hrest, htokens, hlexemes⟩ := ih hls (offset + l.text.width)
      by_cases hkind : l.kind = .trivia .blank
      · obtain ⟨c, htext, hc⟩ := (Lexeme.stands_blank hkind).1 hl
        obtain ⟨hrest', htokens', hlexemes'⟩ := scan_skipped (written ls) hc offset
        have hwidth : l.text.width = c.utf8Size := by simp [htext]
        rw [written_cons, htext, List.singleton_append]
        refine ⟨hrest'.trans hrest, ?_, ?_⟩
        · rw [htokens', ← hwidth, htokens]
          simp [Token.ofLexemes, hkind]
        · rw [hlexemes', hlexemes]
          simp [Lexeme.isBlank, hkind]
      · rw [written_cons, scan_stands hl hkind]
        refine ⟨hrest, ?_, ?_⟩
        · simp only [Token.ofLexemes, htokens]
        · rw [List.filter_cons, List.filter_cons, hlexemes]

theorem exists_legible (t : Text) : ∃ ls, Legible ls (scan t).2 ∧ written ls ++ (scan t).2 = t := by
  generalize hn : t.length = n
  induction n using Nat.strongRecOn generalizing t with
  | ind n ih =>
    cases hfirst : firstLexeme? t with
    | none =>
        rw [scan_eq_nil hfirst]
        exact ⟨[], trivial, rfl⟩
    | some found =>
        obtain ⟨kind, m⟩ := found
        have hpos := firstLexeme?_length_pos hfirst
        have hle := firstLexeme?_le_length hfirst
        by_cases hblank : kind = .trivia .blank
        · subst hblank
          obtain ⟨c, cs, rfl⟩ := List.exists_cons_of_length_pos (by omega : 0 < t.length)
          have hc := isSkipped_of_firstLexeme? hfirst
          rw [(scan_skipped cs hc 0).1]
          obtain ⟨ls, hls, hwritten⟩ := ih cs.length (by simp only [List.length_cons] at hn; omega) cs rfl
          refine ⟨⟨.trivia .blank, [c]⟩ :: ls, ⟨?_, hls⟩, by simp [hwritten]⟩
          exact (Lexeme.stands_blank rfl).2 ⟨c, rfl, hc⟩
        · rw [scan_of_firstLexeme? hfirst]
          obtain ⟨ls, hls, hwritten⟩ := ih (t.drop m).length
            (by simp only [List.length_drop]; omega) (t.drop m) rfl
          refine ⟨⟨kind, t.take m⟩ :: ls, ⟨?_, hls⟩, by simp [hwritten]⟩
          rw [Lexeme.stands_other hblank, hwritten, List.take_append_drop, hfirst, List.length_take,
            Nat.min_eq_left hle]

/-- The tokens of a text are those of the lexemes it is written with. -/
theorem tokenize_eq_ok {t : Text} {ts : List Token} :
    tokenize t = .ok ts ↔ ∃ ls, Legible ls [] ∧ written ls = t ∧ Token.ofLexemes 0 ls = ts := by
  constructor
  · intro h
    unfold tokenize at h
    split at h
    · rename_i ls hscan
      cases h
      obtain ⟨ls', hlegible, hwritten⟩ := exists_legible t
      rw [hscan] at hlegible hwritten
      rw [List.append_nil] at hwritten
      obtain ⟨-, htokens, -⟩ := scan_of_legible hlegible 0
      rw [hwritten, hscan] at htokens
      exact ⟨ls', hlegible, hwritten, htokens.symm⟩
    · cases h
  · rintro ⟨ls, hlegible, rfl, rfl⟩
    obtain ⟨hrest, htokens, -⟩ := scan_of_legible hlegible 0
    unfold tokenize
    split
    · rename_i ls' hscan
      rw [hscan] at htokens
      rw [htokens]
    · rename_i hscan
      rw [hscan] at hrest
      cases hrest

end PugSize.Script
