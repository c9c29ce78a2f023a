import PugSize.Proofs.Script.Arguments

/-!
Well-nested brackets, told by the tokens alone. Tokens are well nested if and only if their lexemes
are those of nodes. Tokens are cut at the commas outside all brackets, which a count of the open
brackets tells; the pieces of the tokens of rows are the tokens of their cores.
-/

namespace PugSize.Script

/-- Tokens whose brackets close in the order in which they open. -/
inductive WellNested : List Token → Prop
  | nil : WellNested []
  | token {t : Token} {ts : List Token} (hopens : t.kind.opens? = none)
      (hcloses : t.kind.closes? = none) (later : WellNested ts) : WellNested (t :: ts)
  | group {opening closing : Token} {shape : Bracket} {inside ts : List Token}
      (hopens : opening.kind.opens? = some shape) (hcloses : closing.kind.closes? = some shape)
      (within : WellNested inside) (later : WellNested ts) :
      WellNested (opening :: inside ++ closing :: ts)

namespace TokenKind

theorem closes?_of_opens? {kind : TokenKind} {shape : Bracket} (h : kind.opens? = some shape) :
    kind.closes? = none := by
  cases kind <;> first | rfl | cases h

theorem opens?_of_closes? {kind : TokenKind} {shape : Bracket} (h : kind.closes? = some shape) :
    kind.opens? = none := by
  cases kind <;> first | rfl | cases h

theorem ne_comma_of_opens? {kind : TokenKind} {shape : Bracket} (h : kind.opens? = some shape) :
    kind ≠ .comma := by
  rintro rfl
  cases h

theorem ne_comma_of_closes? {kind : TokenKind} {shape : Bracket} (h : kind.closes? = some shape) :
    kind ≠ .comma := by
  rintro rfl
  cases h

end TokenKind

namespace WellNested

/-- As many brackets open as close. -/
theorem balanced {ts : List Token} (h : WellNested ts) :
    ts.countP (fun t => t.kind.opens?.isSome) = ts.countP (fun t => t.kind.closes?.isSome) := by
  induction h with
  | nil => rfl
  | token hopens hcloses later ih => simp [hopens, hcloses, ih]
  | group hopens hcloses within later ihWithin ihLater =>
      simp only [List.cons_append, List.countP_cons, List.countP_append, hopens, hcloses,
        TokenKind.closes?_of_opens? hopens, TokenKind.opens?_of_closes? hcloses, ihWithin, ihLater]
      simp only [Option.isSome_some, Option.isSome_none, if_true, Bool.false_eq_true, if_false]
      omega

/-- Reading well-nested tokens leaves the open brackets as they are. -/
theorem segmentsFrom?_append {ts : List Token} (h : WellNested ts) (brackets : List OpenBracket)
    (level : Level) : ∃ level', ∀ more,
      segmentsFrom? brackets level (ts ++ more) = segmentsFrom? brackets level' more := by
  induction h generalizing brackets level with
  | nil => exact ⟨level, fun _ => rfl⟩
  | @token t ts hopens hcloses later ih =>
      obtain ⟨level', hlater⟩ :=
        ih brackets (if t.kind = .comma then level.comma else level.push (.leaf t))
      refine ⟨level', fun more => ?_⟩
      rw [List.cons_append, segmentsFrom?, hopens, hcloses, ← hlater more]
      by_cases hcomma : t.kind = .comma
      · simp only [hcomma, if_true]
      · simp only [hcomma, if_false]
  | @group opening closing shape inside ts hopens hcloses within later ihWithin ihLater =>
      obtain ⟨level₁, hinside⟩ :=
        ihWithin (⟨shape, opening.start, level⟩ :: brackets) Level.start
      obtain ⟨level₂, hlater⟩ := ihLater brackets
        (level.push (.group shape ⟨opening.start, closing.stop⟩ level₁.toSegments))
      refine ⟨level₂, fun more => ?_⟩
      rw [List.append_assoc, List.cons_append, List.cons_append, segmentsFrom?, hopens]
      simp only [hinside]
      rw [segmentsFrom?, TokenKind.opens?_of_closes? hcloses, hcloses]
      simp only [if_true]
      exact hlater more

end WellNested

theorem ofLexemes_leaf (offset : Nat) (l : Lexeme) (ls : List Lexeme) :
    Token.ofLexemes offset (l :: ls) =
      Token.ofLexemes offset [l] ++ Token.ofLexemes (offset + l.text.width) ls := by
  have := ofLexemes_append offset [l] ls
  simpa using this

theorem ofLexemes_plain (offset : Nat) {l : Lexeme} (h : l.isPlain = true) :
    Token.ofLexemes offset [l] = [] ∨ ∃ t : Token, Token.ofLexemes offset [l] = [t] ∧
      t.kind.opens? = none ∧ t.kind.closes? = none ∧ t.kind ≠ .comma := by
  obtain ⟨kind, text⟩ := l
  cases kind with
  | trivia kind => exact .inl rfl
  | token kind =>
      refine .inr ⟨_, rfl, ?_⟩
      simpa [Lexeme.isPlain, and_assoc] using h

/-- The tokens of a bracket group at an offset. -/
theorem ofLexemes_group (offset : Nat) (shape : Bracket) (inside : List Node) :
    ∃ opening closing : Token,
      Token.ofLexemes offset (Node.group shape inside).lexemes =
        opening :: Token.ofLexemes (offset + 1) (lexemesOf inside) ++ [closing] ∧
      opening.kind.opens? = some shape ∧ closing.kind.closes? = some shape ∧
      opening.start = offset ∧ closing.stop = offset + (widthOf inside + 2) := by
  have hwidth : offset + 1 + (written (lexemesOf inside)).width + 1 =
      offset + (widthOf inside + 2) := by
    change offset + 1 + widthOf inside + 1 = _
    omega
  have hgroup : Token.ofLexemes offset (Node.group shape inside).lexemes =
      Token.ofLexemes offset [shape.opening] ++ Token.ofLexemes (offset + 1) (lexemesOf inside) ++
        Token.ofLexemes (offset + 1 + widthOf inside) [shape.closing] := by
    rw [Node.lexemes, ofLexemes_append, ofLexemes_leaf, written_cons, Text.width_append,
      Bracket.opening_width, Nat.add_assoc offset 1]
    rfl
  rw [hgroup]
  cases shape <;> exact ⟨_, _, rfl, rfl, rfl, rfl, hwidth⟩

/-- The tokens of nodes are well nested. -/
theorem wellNested_lexemesOf (offset : Nat) :
    (ns : List Node) → WellNested (Token.ofLexemes offset (lexemesOf ns))
  | [] => .nil
  | .comma :: ns => .token rfl rfl (wellNested_lexemesOf (offset + 1) ns)
  | .leaf l plain :: ns => by
      rw [lexemesOf_cons, Node.lexemes, List.singleton_append, ofLexemes_leaf]
      have hlater := wellNested_lexemesOf (offset + l.text.width) ns
      obtain hnone | ⟨t, ht, hopens, hcloses, -⟩ := ofLexemes_plain offset plain
      · rwa [hnone]
      · rw [ht]
        exact .token hopens hcloses hlater
  | .group shape inside :: ns => by
      obtain ⟨opening, closing, htokens, hopens, hcloses, -⟩ := ofLexemes_group offset shape inside
      rw [lexemesOf_cons, ofLexemes_append, htokens, List.append_assoc, List.singleton_append]
      exact .group hopens hcloses (wellNested_lexemesOf (offset + 1) inside)
        (wellNested_lexemesOf _ ns)
  termination_by ns => sizeOf ns

/-- Tokens are well nested if and only if their lexemes are those of nodes. -/
theorem wellNested_iff {ls : List Lexeme} (hspelled : Spelled ls) (offset : Nat) :
    WellNested (Token.ofLexemes offset ls) ↔ ∃ ns, lexemesOf ns = ls := by
  constructor
  · intro h
    obtain ⟨level, hread⟩ := h.segmentsFrom?_append [] Level.start
    have hsegs : segments? (Token.ofLexemes offset ls) = some level.toSegments := by
      have := hread []
      rwa [List.append_nil] at this
    obtain ⟨ns, hns, -⟩ := (segments?_eq_some hspelled).1 hsegs
    exact ⟨ns, hns⟩
  · rintro ⟨ns, rfl⟩
    exact wellNested_lexemesOf offset ns

/-- How many brackets are open behind a token. -/
def TokenKind.depthBehind (depth : Nat) (kind : TokenKind) : Nat :=
  if kind.opens?.isSome then depth + 1 else if kind.closes?.isSome then depth - 1 else depth

/-- Tokens that stand in some open brackets, cut at the commas outside all brackets. -/
def cutFrom (depth : Nat) : List Token → List (List Token)
  | [] => [[]]
  | t :: ts =>
    if t.kind = .comma ∧ depth = 0 then [] :: cutFrom depth ts
    else (cutFrom (t.kind.depthBehind depth) ts).modifyHead (t :: ·)

/-- Tokens cut at the commas outside all brackets. -/
def cutAtCommas (ts : List Token) : List (List Token) := cutFrom 0 ts

/-- The stretch from the first of some tokens to the last. -/
def stretch? (ts : List Token) : Option Span :=
  match ts.head?, ts.getLast? with
  | some first, some last => some ⟨first.start, last.stop⟩
  | _, _ => none

theorem cutFrom_comma {t : Token} (h : t.kind = .comma) (ts : List Token) :
    cutFrom 0 (t :: ts) = [] :: cutFrom 0 ts := by
  rw [cutFrom, if_pos ⟨h, rfl⟩]

theorem cutFrom_cons {t : Token} {depth : Nat} (h : t.kind ≠ .comma ∨ 0 < depth) (ts : List Token) :
    cutFrom depth (t :: ts) = (cutFrom (t.kind.depthBehind depth) ts).modifyHead (t :: ·) := by
  rw [cutFrom, if_neg (by rintro ⟨hcomma, rfl⟩; simp [hcomma] at h)]

section

variable {kind : TokenKind} {shape : Bracket} (depth : Nat)

theorem depthBehind_opens (h : kind.opens? = some shape) : kind.depthBehind depth = depth + 1 := by
  rw [TokenKind.depthBehind, h, if_pos (by rfl)]

theorem depthBehind_closes (h : kind.closes? = some shape) :
    kind.depthBehind (depth + 1) = depth := by
  rw [TokenKind.depthBehind, TokenKind.opens?_of_closes? h, h, if_neg (by simp), if_pos (by rfl),
    Nat.add_sub_cancel]

theorem depthBehind_other (hopens : kind.opens? = none) (hcloses : kind.closes? = none) :
    kind.depthBehind depth = depth := by
  rw [TokenKind.depthBehind, hopens, hcloses, if_neg (by simp), if_neg (by simp)]

end

theorem modifyHead_nil_append (segs : List (List Token)) : segs.modifyHead ([] ++ ·) = segs := by
  cases segs <;> rfl

theorem modifyHead_append (as bs : List Token) (segs : List (List Token)) :
    (segs.modifyHead (bs ++ ·)).modifyHead (as ++ ·) = segs.modifyHead (as ++ bs ++ ·) := by
  cases segs <;> simp

/-- Well-nested tokens inside brackets are not cut. -/
theorem WellNested.cutFrom_within {ts : List Token} (h : WellNested ts) (depth : Nat)
    (more : List Token) :
    cutFrom (depth + 1) (ts ++ more) = (cutFrom (depth + 1) more).modifyHead (ts ++ ·) := by
  induction h generalizing depth more with
  | nil => exact (modifyHead_nil_append _).symm
  | @token t ts hopens hcloses later ih =>
      rw [List.cons_append, cutFrom_cons (.inr (Nat.succ_pos _)), depthBehind_other _ hopens hcloses, ih]
      exact modifyHead_append [t] ts _
  | @group opening closing shape inside ts hopens hcloses within later ihWithin ihLater =>
      rw [List.append_assoc, List.cons_append, List.cons_append, cutFrom_cons (.inr (Nat.succ_pos _)),
        depthBehind_opens _ hopens, ihWithin, cutFrom_cons (.inr (Nat.succ_pos _)),
        depthBehind_closes _ hcloses, ihLater]
      cases cutFrom (depth + 1) more <;> simp

/-- Nodes without a comma among them are not cut. -/
theorem cutFrom_uncut {ns : List Node} (h : Uncut ns) (offset : Nat) (more : List Token) :
    cutFrom 0 (Token.ofLexemes offset (lexemesOf ns) ++ more) =
      (cutFrom 0 more).modifyHead (Token.ofLexemes offset (lexemesOf ns) ++ ·) := by
  induction ns generalizing offset with
  | nil => exact (modifyHead_nil_append _).symm
  | cons n ns ih =>
      have hlater := ih fun m hm => h m (List.mem_cons_of_mem _ hm)
      rw [lexemesOf_cons, ofLexemes_append, List.append_assoc]
      cases n with
      | comma => exact absurd (h _ List.mem_cons_self) (by decide)
      | leaf l plain =>
          rw [Node.lexemes]
          obtain hnone | ⟨t, ht, hopens, hcloses, hcomma⟩ := ofLexemes_plain offset plain
          · rw [hnone, List.nil_append, List.nil_append, hlater]
          · rw [ht, List.singleton_append, cutFrom_cons (.inl hcomma),
              depthBehind_other _ hopens hcloses, hlater]
            exact modifyHead_append [t] _ _
      | group shape inside =>
          obtain ⟨opening, closing, htokens, hopens, hcloses, -⟩ :=
            ofLexemes_group offset shape inside
          rw [htokens, List.append_assoc, List.cons_append, List.singleton_append,
            cutFrom_cons (.inl (TokenKind.ne_comma_of_opens? hopens)), depthBehind_opens _ hopens,
            (wellNested_lexemesOf _ inside).cutFrom_within,
            cutFrom_cons (.inl (TokenKind.ne_comma_of_closes? hcloses)),
            depthBehind_closes _ hcloses, hlater]
          cases cutFrom 0 more <;> simp

/-- The tokens of segments the first of which stands at an offset. -/
def tokensAll (offset : Nat) : List (List Node) → List (List Token)
  | [] => []
  | seg :: segs =>
    Token.ofLexemes offset (lexemesOf seg) :: tokensAll (offset + widthOf seg + 1) segs

theorem cutAtCommas_commas {segs : List (List Node)} (hne : segs ≠ [])
    (h : ∀ seg ∈ segs, Uncut seg) (offset : Nat) :
    cutAtCommas (Token.ofLexemes offset (lexemesOf (commas segs))) = tokensAll offset segs := by
  induction segs generalizing offset with
  | nil => exact absurd rfl hne
  | cons seg segs ih =>
      have hseg := h seg List.mem_cons_self
      cases segs with
      | nil =>
          have hcut := cutFrom_uncut hseg offset []
          rw [List.append_nil] at hcut
          rw [commas, List.flatMap_nil, List.append_nil, cutAtCommas, hcut, cutFrom, tokensAll,
            tokensAll]
          simp
      | cons s ss =>
          have hlater := ih (List.cons_ne_nil _ _) (fun t ht => h t (List.mem_cons_of_mem _ ht))
            (offset + widthOf seg + 1)
          rw [commas_cons seg (List.cons_ne_nil _ _), lexemesOf_append, lexemesOf_cons, ofLexemes_append,
            cutAtCommas, cutFrom_uncut hseg]
          change (cutFrom 0 (_ :: Token.ofLexemes (offset + widthOf seg + 1)
            (lexemesOf (commas (s :: ss))))).modifyHead _ = _
          rw [cutFrom_comma rfl, ← cutAtCommas, hlater, List.modifyHead_cons, List.append_nil]
          rfl

/-- The tokens of a node that is no comma begin and end where the node does. -/
theorem Node.exists_tokens {n : Node} (htrivia : n.isTrivia = false) (hcomma : n.isComma = false)
    (offset : Nat) : ∃ first last : Token,
      (Token.ofLexemes offset n.lexemes).head? = some first ∧ first.start = offset ∧
      (Token.ofLexemes offset n.lexemes).getLast? = some last ∧
      last.stop = offset + widthOf [n] := by
  cases n with
  | leaf l plain =>
      obtain ⟨kind, text⟩ := l
      cases kind with
      | trivia kind => cases htrivia
      | token kind => exact ⟨_, _, rfl, rfl, rfl, by rw [widthOf_leaf]; rfl⟩
  | comma => cases hcomma
  | group shape inside =>
      obtain ⟨opening, closing, htokens, -, -, hstart, hstop⟩ := ofLexemes_group offset shape inside
      refine ⟨opening, closing, by rw [htokens]; rfl, hstart, ?_, by rw [hstop, widthOf_group]⟩
      rw [htokens, List.getLast?_concat]

/-- The tokens of a solid core begin and end where the core does. -/
theorem Solid.stretch?_eq {core : List Node} (h : Solid core) (offset : Nat) :
    stretch? (Token.ofLexemes offset (lexemesOf core)) = some ⟨offset, offset + widthOf core⟩ := by
  obtain ⟨n, hn, hfirst⟩ := h.first
  obtain ⟨m, hm, hlast⟩ := h.last
  obtain ⟨behind, hbehind⟩ := List.head?_eq_some_iff.1 hn
  obtain ⟨before, hbefore⟩ := List.getLast?_eq_some_iff.1 hm
  obtain ⟨first, -, hhead, hstart, -⟩ :=
    Node.exists_tokens hfirst (h.uncut n (by rw [hbehind]; simp)) offset
  obtain ⟨-, last, -, -, hgetLast, hstop⟩ :=
    Node.exists_tokens hlast (h.uncut m (by rw [hbefore]; simp)) (offset + widthOf before)
  have htokensHead : (Token.ofLexemes offset (lexemesOf core)).head? = some first := by
    rw [hbehind, lexemesOf_cons, ofLexemes_append, List.head?_append, hhead, Option.some_or]
  have htokensLast : (Token.ofLexemes offset (lexemesOf core)).getLast? = some last := by
    rw [hbefore, lexemesOf_append, ofLexemes_append, lexemesOf_cons, lexemesOf_nil, List.append_nil,
      List.getLast?_append]
    exact congrArg (Option.or · _) hgetLast
  rw [stretch?, htokensHead, htokensLast]
  simp only [hstart, hstop, hbefore, widthOf_append, Nat.add_assoc]

theorem ofLexemes_blank {ns : List Node} (h : Blank ns) (offset : Nat) :
    Token.ofLexemes offset (lexemesOf ns) = [] := by
  apply ofLexemes_trivia
  intro l hl
  induction ns with
  | nil => cases hl
  | cons n ns ih =>
      rw [lexemesOf_cons, List.mem_append] at hl
      obtain hl | hl := hl
      · have hn := h n List.mem_cons_self
        cases n with
        | leaf m plain =>
            rw [List.mem_singleton.1 hl]
            exact hn
        | comma => cases hn
        | group shape inside => cases hn
      · exact ih (fun m hm => h m (List.mem_cons_of_mem _ hm)) hl

/-- The tokens of a row are those of its core. -/
theorem Row.ofLexemes_nodes (r : Row) (offset : Nat) :
    Token.ofLexemes offset (lexemesOf r.nodes) =
      Token.ofLexemes (offset + widthOf r.lead) (lexemesOf r.core) := by
  rw [Row.nodes, lexemesOf_append, lexemesOf_append, ofLexemes_append, ofLexemes_append,
    ofLexemes_blank r.blank_lead, ofLexemes_blank r.blank_trail, List.append_nil, List.nil_append]
  rfl

theorem Row.stretch?_eq (r : Row) (offset : Nat) :
    stretch? (Token.ofLexemes offset (lexemesOf r.nodes)) = some (r.span offset) := by
  rw [r.ofLexemes_nodes, r.solid.stretch?_eq, Row.span]

theorem Row.ofLexemes_ne_nil (r : Row) (offset : Nat) :
    Token.ofLexemes offset (lexemesOf r.nodes) ≠ [] := by
  intro hnil
  have := r.stretch?_eq offset
  rw [hnil] at this
  cases this

theorem tokensAll_rows (rows : List Row) {rest : List (List Node)} (hrest : Rest rest)
    (offset : Nat) :
    (∀ seg ∈ (tokensAll offset (rows.map Row.nodes ++ rest)).dropLast, seg ≠ []) ∧
      (tokensAll offset (rows.map Row.nodes ++ rest)).filterMap stretch? = rowSpans offset rows := by
  induction rows generalizing offset with
  | nil =>
      obtain rfl | ⟨blank, rfl, hblank⟩ := hrest
      · exact ⟨nofun, rfl⟩
      · simp [tokensAll, ofLexemes_blank hblank, stretch?, rowSpans]
  | cons r rows ih =>
      obtain ⟨hfilled, hspans⟩ := ih (offset + r.width + 1)
      rw [List.map_cons, List.cons_append, tokensAll, ← Row.width]
      refine ⟨?_, by rw [List.filterMap_cons_some (r.stretch?_eq offset), hspans, rowSpans]⟩
      intro seg hseg
      cases hlater : tokensAll (offset + r.width + 1) (rows.map Row.nodes ++ rest) with
      | nil =>
          rw [hlater] at hseg
          cases hseg
      | cons next later =>
          rw [hlater, List.dropLast_cons_of_ne_nil (List.cons_ne_nil _ _), ← hlater] at hseg
          obtain rfl | hseg := List.mem_cons.1 hseg
          · exact r.ofLexemes_ne_nil offset
          · exact hfilled seg hseg

/-- The tokens of rows are cut into the rows: only the last piece may be empty, and each other one goes
from the start of the core of its row to the end. -/
theorem cutAtCommas_rows (rows : List Row) {rest : List (List Node)} (hrest : Rest rest)
    (offset : Nat) :
    (∀ seg ∈ (cutAtCommas (Token.ofLexemes offset (lexemesOf (rowNodes rows rest)))).dropLast,
      seg ≠ []) ∧
      (cutAtCommas (Token.ofLexemes offset (lexemesOf (rowNodes rows rest)))).filterMap stretch? =
        rowSpans offset rows := by
  by_cases hne : rows.map Row.nodes ++ rest = []
  · obtain ⟨hrows, rfl⟩ := List.append_eq_nil_iff.1 hne
    obtain rfl := List.map_eq_nil_iff.1 hrows
    exact ⟨nofun, rfl⟩
  · have huncut : ∀ seg ∈ rows.map Row.nodes ++ rest, Uncut seg := by
      intro seg hseg
      obtain hseg | hseg := List.mem_append.1 hseg
      · obtain ⟨r, -, rfl⟩ := List.mem_map.1 hseg
        exact r.uncut
      · exact hrest.uncut seg hseg
    rw [rowNodes, cutAtCommas_commas hne huncut]
    exact tokensAll_rows rows hrest offset

end PugSize.Script
