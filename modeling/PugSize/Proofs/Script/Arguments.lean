import PugSize.Proofs.Script.Rows

/-!
Argument texts as rows. A text is an argument list if and only if it is laid out in rows that are
read one by one, and the spans of the arguments are those of the cores of the rows.
-/

namespace PugSize.Script

theorem Expr.ofToken_span (t : Token) : (Expr.ofToken t).span = t.span := by
  unfold Expr.ofToken
  split
  · rfl
  · rfl
  · split <;> rfl
  · rfl

theorem Tree.expr?_span {t : Tree} {e : Expr} (h : Tree.expr? t = some e) : e.span = t.span := by
  cases t with
  | leaf t =>
      cases h
      exact Expr.ofToken_span t
  | group shape span segs =>
      cases shape with
      | round =>
          cases h
          rfl
      | square =>
          obtain ⟨es, -, rfl⟩ := Option.map_eq_some_iff.1 h
          rfl
      | curly =>
          obtain ⟨ps, -, rfl⟩ := Option.map_eq_some_iff.1 h
          rfl

theorem segmentExpr?_span {spreads : Bool} {t : Tree} {rest : List Tree} {e : Expr}
    (h : segmentExpr? spreads (t :: rest) = some e) : e.span = ⟨t.span.start, t.lastStop rest⟩ := by
  cases t with
  | leaf t =>
      rw [segmentExpr?] at h
      split at h
      · obtain ⟨e', -, rfl⟩ := Option.map_eq_some_iff.1 h
        rfl
      · cases h
        rw [Expr.ofLeaf]
        split
        · rename_i hempty
          obtain rfl := List.isEmpty_iff.1 hempty
          exact Expr.ofToken_span t
        · rfl
  | group shape span segs =>
      obtain ⟨e', he', rfl⟩ := Option.map_eq_some_iff.1 h
      split
      · rename_i hempty
        obtain rfl := List.isEmpty_iff.1 hempty
        rw [Tree.expr?_span he']
        rfl
      · rfl

theorem property?_span {t : Tree} {rest : List Tree} {p : Property Expr}
    (h : property? (t :: rest) = some p) : p.span = ⟨t.span.start, t.lastStop rest⟩ := by
  cases t with
  | leaf t =>
      rw [property?] at h
      split at h
      · obtain ⟨e, -, rfl⟩ := Option.map_eq_some_iff.1 h
        rfl
      · obtain ⟨key, -, hkey⟩ := Option.bind_eq_some_iff.1 h
        split at hkey
        · split at hkey
          · cases hkey
            rfl
          · cases hkey
        · obtain ⟨value, -, rfl⟩ := Option.map_eq_some_iff.1 hkey
          rfl
  | group shape span segs =>
      rw [property?] at h
      split at h
      · obtain ⟨value, -, rfl⟩ := Option.map_eq_some_iff.1 h
        rfl
      · cases h

/-- The spans of rows the first of which stands at an offset. -/
def rowSpans (offset : Nat) : List Row → List Span
  | [] => []
  | r :: rows => r.span offset :: rowSpans (offset + r.width + 1) rows

theorem length_readRows {α : Type} {read : List Tree → Option α} {offset : Nat} {rows : List Row}
    {found : List α} (h : readRows read offset rows = some found) : found.length = rows.length := by
  induction rows generalizing offset found with
  | nil =>
      cases h
      rfl
  | cons r rows ih =>
      obtain ⟨a, -, hlater⟩ := Option.bind_eq_some_iff.1 h
      obtain ⟨as, has, rfl⟩ := Option.map_eq_some_iff.1 hlater
      rw [List.length_cons, List.length_cons, ih has]

theorem readRows_spans {α : Type} {read : List Tree → Option α} {span : α → Span}
    (hspan : ∀ t rest a, read (t :: rest) = some a → span a = ⟨t.span.start, t.lastStop rest⟩)
    {offset : Nat} {rows : List Row} {found : List α} (h : readRows read offset rows = some found) :
    found.map span = rowSpans offset rows := by
  induction rows generalizing offset found with
  | nil =>
      cases h
      rfl
  | cons r rows ih =>
      obtain ⟨a, ha, hlater⟩ := Option.bind_eq_some_iff.1 h
      obtain ⟨as, has, rfl⟩ := Option.map_eq_some_iff.1 hlater
      obtain ⟨t, rest, htrees, hrow⟩ := r.trees_eq offset
      rw [htrees] at ha
      rw [List.map_cons, ih has, rowSpans, hspan t rest a ha, hrow]

/-- Whether a row can be read, wherever it stands. -/
def Row.Reads {α : Type} (read : List Tree → Option α) (r : Row) : Prop :=
  (read (r.trees 0)).isSome = true

theorem readRows_isSome {α : Type} {read : List Tree → Option α}
    (hshift : ∀ n ts, (read (Tree.shiftSegment n ts)).isSome = (read ts).isSome) (offset : Nat)
    (rows : List Row) :
    (∃ found, readRows read offset rows = some found) ↔ ∀ r ∈ rows, r.Reads read := by
  have hrow (r : Row) (off : Nat) : (read (r.trees off)).isSome = (read (r.trees 0)).isSome := by
    have htrees := r.trees_shift off 0
    rw [Nat.zero_add] at htrees
    rw [htrees, hshift]
  induction rows generalizing offset with
  | nil => exact ⟨fun _ => nofun, fun _ => ⟨[], rfl⟩⟩
  | cons r rows ih =>
      constructor
      · rintro ⟨found, h⟩ s hs
        obtain ⟨a, ha, hlater⟩ := Option.bind_eq_some_iff.1 h
        obtain ⟨as, has, rfl⟩ := Option.map_eq_some_iff.1 hlater
        obtain rfl | hs := List.mem_cons.1 hs
        · rw [Row.Reads, ← hrow s offset, ha, Option.isSome_some]
        · exact (ih _).1 ⟨as, has⟩ s hs
      · intro h
        have hr := h r List.mem_cons_self
        rw [Row.Reads, ← hrow r offset] at hr
        obtain ⟨a, ha⟩ := Option.isSome_iff_exists.1 hr
        obtain ⟨as, has⟩ :=
          (ih (offset + r.width + 1)).2 fun s hs => h s (List.mem_cons_of_mem _ hs)
        exact ⟨a :: as, by rw [readRows, ha, Option.bind_some, has, Option.map_some]⟩

theorem isSome_segmentExpr?_shift (spreads : Bool) (n : Nat) (ts : List Tree) :
    (segmentExpr? spreads (Tree.shiftSegment n ts)).isSome = (segmentExpr? spreads ts).isSome := by
  rw [segmentExpr?_shift, Option.isSome_map]

theorem isSome_property?_shift (n : Nat) (ts : List Tree) :
    (property? (Tree.shiftSegment n ts)).isSome = (property? ts).isSome := by
  rw [property?_shift, Option.isSome_map]

def Lexeme.isTrivia (l : Lexeme) : Bool :=
  match l.kind with
  | .trivia _ => true
  | .token _ => false

theorem ofLexemes_append (offset : Nat) (as bs : List Lexeme) :
    Token.ofLexemes offset (as ++ bs) =
      Token.ofLexemes offset as ++ Token.ofLexemes (offset + (written as).width) bs := by
  induction as generalizing offset with
  | nil => rfl
  | cons a as ih =>
      rw [List.cons_append, Token.ofLexemes, Token.ofLexemes, ih, written_cons, Text.width_append,
        Nat.add_assoc]
      split <;> rfl

theorem ofLexemes_trivia {ls : List Lexeme} (h : ∀ l ∈ ls, l.isTrivia = true) (offset : Nat) :
    Token.ofLexemes offset ls = [] := by
  induction ls generalizing offset with
  | nil => rfl
  | cons l ls ih =>
      have hl := h l List.mem_cons_self
      rw [Token.ofLexemes, ih fun m hm => h m (List.mem_cons_of_mem _ hm)]
      simp only [Lexeme.isTrivia] at hl
      split at hl
      · rename_i hkind
        rw [hkind]
      · cases hl

/-- The last token of lexemes, if there is one, stands before white space and comments only. -/
theorem exists_last_token (ls : List Lexeme) (h : ∃ l ∈ ls, l.isTrivia = false) :
    ∃ before l after kind, ls = before ++ l :: after ∧ l.kind = .token kind ∧
      ∀ m ∈ after, m.isTrivia = true := by
  induction ls with
  | nil =>
      obtain ⟨l, hl, -⟩ := h
      cases hl
  | cons m ms ih =>
      by_cases hms : ∃ l ∈ ms, l.isTrivia = false
      · obtain ⟨before, l, after, kind, rfl, hkind, hafter⟩ := ih hms
        exact ⟨m :: before, l, after, kind, rfl, hkind, hafter⟩
      · obtain ⟨l, hl, htrivia⟩ := h
        obtain rfl | hl := List.mem_cons.1 hl
        · obtain ⟨kind, text⟩ := l
          cases kind with
          | trivia kind => cases htrivia
          | token kind =>
              refine ⟨[], ⟨.token kind, text⟩, ms, kind, rfl, rfl, ?_⟩
              intro n hn
              apply Classical.byContradiction
              intro hn'
              exact hms ⟨n, hn, by simpa using hn'⟩
        · exact absurd ⟨l, hl, htrivia⟩ hms

/-- What follows an argument list: the closing parenthesis, and white space and comments, the last of
which may hold the parenthesis that was put behind the text. -/
def Ending (after : Text) : Prop :=
  ∃ ls, (∀ l ∈ ls, l.isTrivia = true) ∧ after = ')' :: written ls ∧ Legible ls []

/-- The tokens of lexemes before an ending are followed by the closing parenthesis. -/
theorem Ending.tokenize {ls : List Lexeme} {after : Text} (h : Ending after)
    (hlegible : Legible ls after) :
    Script.tokenize (written ls ++ after) =
      .ok (Token.ofLexemes 0 ls ++ [⟨.rparen, [')'], (written ls).width⟩]) := by
  obtain ⟨later, hlater, rfl, hlegibleLater⟩ := h
  have hall : Legible (ls ++ Bracket.closing .round :: later) [] := by
    refine legible_append.2 ⟨by rw [List.append_nil]; exact hlegible, ?_, hlegibleLater⟩
    rw [Lexeme.stands_other (by decide)]
    exact firstLexeme?_mark (rfl : markKind? ')' = some .rparen) _
  have htokens := tokenize_eq_ok.2 ⟨_, hall, rfl, rfl⟩
  rw [written_append, ofLexemes_append, Token.ofLexemes, ofLexemes_trivia hlater] at htokens
  simpa [Bracket.closing] using htokens

theorem argumentTokens?_eq_some {t : Text} {ts : List Token} :
    argumentTokens? t = some ts ↔
      ∃ ls after, t ++ [')'] = written ls ++ after ∧ Ending after ∧ Legible ls after ∧
        Token.ofLexemes 0 ls = ts := by
  constructor
  · intro h
    unfold argumentTokens? at h
    split at h
    · cases h
    · rename_i tokens htokens
      obtain ⟨ls, hlegible, hwritten, rfl⟩ := tokenize_eq_ok.1 htokens
      split at h
      · rename_i hlast
        have hsome : ∃ l ∈ ls, l.isTrivia = false := by
          apply Classical.byContradiction
          intro hnone
          have hall : ∀ l ∈ ls, l.isTrivia = true := by
            intro l hl
            apply Classical.byContradiction
            intro hl'
            exact hnone ⟨l, hl, by simpa using hl'⟩
          rw [ofLexemes_trivia hall] at hlast
          cases hlast
        obtain ⟨before, l, later, kind, rfl, hkind, hlater⟩ := exists_last_token ls hsome
        have hbracket : l = Bracket.closing .round := by
          rw [ofLexemes_append, Token.ofLexemes, hkind, ofLexemes_trivia hlater] at hlast
          simp only [List.getLast?_concat, Option.map_some, Option.some.injEq] at hlast
          subst hlast
          have hspelling := hlegible.spelled l (by simp) _ hkind
          have hl := hspelling.closing (rfl : TokenKind.rparen.closes? = some .round)
          rw [← hkind] at hl
          exact hl
        subst hbracket
        obtain ⟨hbefore, hclosing, hlegibleLater⟩ := legible_append.1 hlegible
        rw [List.append_nil] at hbefore
        refine ⟨before, _, by rw [← hwritten, written_append], ?_, hbefore, ?_⟩
        · exact ⟨later, hlater, rfl, hlegibleLater⟩
        · rw [ofLexemes_append, Token.ofLexemes, ofLexemes_trivia hlater] at h
          simpa [Bracket.closing] using h
      · cases h
  · rintro ⟨ls, after, htext, hending, hlegible, rfl⟩
    unfold argumentTokens?
    rw [htext, hending.tokenize hlegible]
    simp

/-- A text laid out in rows, up to what follows its nodes and the closing parenthesis behind it. -/
structure Layout (t : Text) (rows : List Row) (rest : List (List Node)) (after : Text) : Prop where
  text : t ++ [')'] = textOf (rowNodes rows rest) ++ after
  tail : Rest rest
  ending : Ending after
  legible : Legible (lexemesOf (rowNodes rows rest)) after

/-- A text is an argument list if and only if it is laid out in rows that are read. -/
theorem arguments?_eq_some {t : Text} {args : List Expr} :
    arguments? t = some args ↔ ∃ rows rest after, Layout t rows rest after ∧
      readRows (segmentExpr? false) 0 rows = some args := by
  constructor
  · intro h
    obtain ⟨ts, hts, h⟩ := Option.bind_eq_some_iff.1 h
    obtain ⟨segs, hsegs, hargs⟩ := Option.bind_eq_some_iff.1 h
    obtain ⟨ls, after, htext, hending, hlegible, rfl⟩ := argumentTokens?_eq_some.1 hts
    obtain ⟨ns, rfl, rfl⟩ := (segments?_eq_some hlegible.spelled).1 hsegs
    rw [argumentsOf?_eq, rowsOf?_place] at hargs
    obtain ⟨rows, rest, rfl, hrest, hrows⟩ := hargs
    exact ⟨rows, rest, after, ⟨htext, hrest, hending, hlegible⟩, hrows⟩
  · rintro ⟨rows, rest, after, hlayout, hrows⟩
    have hts := argumentTokens?_eq_some.2
      ⟨_, after, hlayout.text, hlayout.ending, hlayout.legible, rfl⟩
    have hsegs : segments? (Token.ofLexemes 0 (lexemesOf (rowNodes rows rest))) =
        some (place 0 (rowNodes rows rest)) :=
      (segments?_eq_some hlayout.legible.spelled).2 ⟨_, rfl, rfl⟩
    have hargs := rowsOf?_place.2 ⟨rows, rest, rfl, hlayout.tail, hrows⟩
    rw [arguments?, hts, Option.bind_some, hsegs, Option.bind_some, argumentsOf?_eq, hargs]

end PugSize.Script
