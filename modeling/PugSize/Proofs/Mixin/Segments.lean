import PugSize.Proofs.Mixin.Agreement
import PugSize.Proofs.Script.Nesting

/-!
The arguments of a call and its tokens. The brackets of a text that is read as arguments are well
nested, and the arguments are the pieces into which the commas outside all brackets cut its tokens. The
one exception is a text that ends in a comment which takes in the closing parenthesis: its tokens have
a parenthesis too many.
-/

namespace PugSize.Script

/-- Whether arguments are what the commas outside all brackets cut tokens into. Only the last piece may
be empty; each other one is an argument, which goes from its first token to its last. -/
structure CutAs (ts : List Token) (args : List Expr) : Prop where
  nested : WellNested ts
  filled : ∀ seg ∈ (cutAtCommas ts).dropLast, seg ≠ []
  count : args.length = ((cutAtCommas ts).filter (· ≠ [])).length
  spans : args.map Expr.span = (cutAtCommas ts).filterMap stretch?

theorem isSome_stretch? (ts : List Token) : (stretch? ts).isSome = decide (ts ≠ []) := by
  cases ts with
  | nil => rfl
  | cons t ts =>
      rw [stretch?, List.head?_cons, List.getLast?_cons]
      rfl

theorem length_filterMap_stretch? (segs : List (List Token)) :
    (segs.filterMap stretch?).length = (segs.filter (· ≠ [])).length := by
  rw [List.length_filterMap_eq_countP, List.countP_eq_length_filter]
  simp only [isSome_stretch?]

/-- A lexeme that is no token and ends in a parenthesis is a line comment, also without it. -/
theorem exists_lineComment {l : Lexeme} {front rest : Text} (htrivia : l.isTrivia = true)
    (hstands : l.Stands rest) (htext : l.text = front ++ [')']) :
    ∃ body, front = '/' :: '/' :: body ∧ '\n' ∉ body := by
  obtain ⟨kind, text⟩ := l
  cases kind with
  | token kind => cases htrivia
  | trivia kind =>
      cases kind with
      | blank =>
          obtain ⟨c, hc, hskipped⟩ := (Lexeme.stands_blank rfl).1 hstands
          rw [htext] at hc
          have hlast := congrArg List.getLast? hc
          obtain rfl : ')' = c := by simpa using hlast
          exact absurd hskipped (by decide)
      | blockComment =>
          cases hstands.spelling (by simp) with
          | @blockComment body hbody =>
              have hend : ('/' :: '*' :: body ++ ['*']) ++ ['/'] = front ++ [')'] := by
                rw [← htext]
                simp
              exact absurd (List.append_inj' hend rfl).2 (by decide)
      | lineComment =>
          obtain ⟨body, hbody, hnewline⟩ := (hstands.lineComment rfl).1
          obtain rfl | ⟨init, c, rfl⟩ := List.eq_nil_or_concat body
          · have hend : ['/'] ++ ['/'] = front ++ [')'] := hbody.symm.trans htext
            exact absurd (List.append_inj' hend rfl).2 (by decide)
          · have hend : ('/' :: '/' :: init) ++ [c] = front ++ [')'] := by
              rw [← htext, hbody, List.concat_eq_append]
              rfl
            obtain ⟨rfl, -⟩ := List.append_inj' hend rfl
            refine ⟨init, rfl, fun hmem => hnewline ?_⟩
            rw [List.concat_eq_append]
            exact List.mem_append_left _ hmem

/-- A comment that takes in the parenthesis behind a text is a comment without it too. -/
theorem Ending.exists_shorter {tail : Text} (h : Ending (tail ++ [')'])) (hne : tail ≠ []) :
    ∃ ls, (∀ l ∈ ls, l.isTrivia = true) ∧ tail = ')' :: written ls ∧ Legible ls [] := by
  obtain ⟨ls, htrivia, htext, hlegible⟩ := h
  obtain rfl | ⟨init, l, rfl⟩ := List.eq_nil_or_concat ls
  · exact absurd (by simpa using htext) hne
  rw [List.concat_eq_append] at htrivia htext hlegible
  obtain ⟨hinit, hl, -⟩ := legible_append.1 hlegible
  rw [written_nil, List.append_nil] at hl
  obtain ⟨front, c, htextl⟩ := (List.eq_nil_or_concat l.text).resolve_left hl.ne_nil
  rw [List.concat_eq_append] at htextl
  have hparts : tail ++ [')'] = (')' :: written init ++ front) ++ [c] := by
    rw [htext, written_append, written_cons, written_nil, htextl]
    simp
  obtain ⟨rfl, hc⟩ := List.append_inj' hparts rfl
  obtain rfl : ')' = c := List.singleton_inj.1 hc
  obtain ⟨body, rfl, hbody⟩ := exists_lineComment (htrivia l (by simp)) hl htextl
  refine ⟨init ++ [⟨.trivia .lineComment, '/' :: '/' :: body⟩], ?_, by simp, ?_⟩
  · intro m hm
    obtain hm | hm := List.mem_append.1 hm
    · exact htrivia m (List.mem_append_left _ hm)
    · rw [List.mem_singleton.1 hm]
      rfl
  · refine legible_append.2 ⟨hinit.swap_head (.cons (by decide)) ?_, ?_, trivial⟩
    · rw [written_cons, written_cons, htextl]
      rfl
    · rw [Lexeme.stands_other (by simp)]
      exact firstLexeme?_lineComment hbody nofun

/-- The tokens of a text that is read as arguments are those of its rows, with a closing parenthesis
behind them if a comment takes in the one that is put behind the text. -/
theorem Layout.tokenize {t : Text} {rows : List Row} {rest : List (List Node)} {after : Text}
    (h : Layout t rows rest after) :
    Script.tokenize t = .ok (Token.ofLexemes 0 (lexemesOf (rowNodes rows rest)) ++
      if after = [')'] then [] else [⟨.rparen, [')'], widthOf (rowNodes rows rest)⟩]) := by
  obtain ⟨tail, rfl, rfl⟩ := h.exists_tail
  obtain rfl | hne := eq_or_ne tail []
  · exact tokenize_eq_ok.2 ⟨_, h.legible.alone, by rw [List.append_nil]; rfl, by simp⟩
  · obtain ⟨ls, htrivia, rfl, hls⟩ := h.ending.exists_shorter hne
    have hnodes := h.legible.swap_head (.cons (by decide)) (by rfl : (')' :: written ls).head? = _)
    have hending : Ending (')' :: written ls) := ⟨ls, htrivia, rfl, hls⟩
    rw [if_neg (by simp)]
    exact hending.tokenize hnodes

/-- The tokens of rows are those of the arguments that the rows are read as. -/
theorem Layout.cutAs {t : Text} {rows : List Row} {rest : List (List Node)} {after : Text}
    {args : List Expr} (h : Layout t rows rest after)
    (hrows : readRows (segmentExpr? false) 0 rows = some args) :
    CutAs (Token.ofLexemes 0 (lexemesOf (rowNodes rows rest))) args := by
  obtain ⟨hfilled, hspans⟩ := cutAtCommas_rows rows h.tail 0
  have hargs : args.map Expr.span = rowSpans 0 rows :=
    readRows_spans (fun _ _ _ => segmentExpr?_span) hrows
  refine ⟨wellNested_lexemesOf 0 _, hfilled, ?_, hargs.trans hspans.symm⟩
  rw [← length_filterMap_stretch?, hspans, ← hargs, List.length_map]

/-- Arguments are the pieces of the tokens of their text: the brackets are well nested, and the commas
outside all brackets cut the tokens into the arguments. This holds unless a comment at the end of the
text takes in the closing parenthesis behind it. -/
theorem arguments?_cut {t : Text} {args : List Expr} (h : arguments? t = some args) :
    (∃ ts, tokenize t = .ok ts ∧ CutAs ts args) ↔ closesBehind t = true := by
  obtain ⟨rows, rest, after, hlayout, hrows⟩ := arguments?_eq_some.1 h
  have hcut := hlayout.cutAs hrows
  rw [hlayout.closesBehind_iff, hlayout.tokenize]
  constructor
  · rintro ⟨ts, hts, hnested, -⟩
    -- With the parenthesis behind them, the tokens close one bracket more than they open.
    apply Classical.byContradiction
    intro hlong
    rw [if_neg hlong, Except.ok.injEq] at hts
    have hbalanced := hcut.nested.balanced
    have hbalanced' := hnested.balanced
    rw [← hts, List.countP_append, List.countP_append, hbalanced] at hbalanced'
    simp [TokenKind.opens?, TokenKind.closes?] at hbalanced'
  · intro hshort
    exact ⟨_, by rw [if_pos hshort, List.append_nil], hcut⟩

theorem arguments?_cut_nested :
    let t := "f(a, 'b,'), [1,, \x7b\x7d], \x7b k: \x60,\x60 /* , */, m(a, b) \x7b\x7d \x7d // ,\n,".toList
    closesBehind t = true ∧ ∃ args ts, arguments? t = some args ∧ tokenize t = .ok ts ∧
      CutAs ts args ∧ args.map Expr.span = [⟨0, 10⟩, ⟨12, 20⟩, ⟨22, 52⟩] := by
  have hargs : arguments?
      "f(a, 'b,'), [1,, \x7b\x7d], \x7b k: \x60,\x60 /* , */, m(a, b) \x7b\x7d \x7d // ,\n,".toList =
        some [.other ⟨0, 10⟩, .array [.number ⟨13, 14⟩, .object [] ⟨17, 19⟩] ⟨12, 20⟩,
          .object [⟨some ['k'], ⟨24, 30⟩, .other ⟨27, 30⟩⟩, ⟨some ['m'], ⟨40, 50⟩, .other ⟨41, 50⟩⟩]
            ⟨22, 52⟩] := by cbv
  have hcloses : closesBehind
      "f(a, 'b,'), [1,, \x7b\x7d], \x7b k: \x60,\x60 /* , */, m(a, b) \x7b\x7d \x7d // ,\n,".toList = true := by
    cbv
  obtain ⟨ts, hts, hcut⟩ := (arguments?_cut hargs).2 hcloses
  exact ⟨hcloses, _, ts, hargs, hts, hcut, rfl⟩

/-- A comment behind a closing parenthesis takes in the one behind the text. The first is taken for it,
and the tokens are not well nested. -/
theorem arguments?_unnested :
    let t := "a) //".toList
    (arguments? t).isSome = true ∧ ∃ ts, tokenize t = .ok ts ∧ ¬ WellNested ts := by
  have hargs : arguments? "a) //".toList = some [.other ⟨0, 1⟩] := by cbv
  have htokens : tokenize "a) //".toList = .ok [⟨.ident, ['a'], 0⟩, ⟨.rparen, [')'], 1⟩] := by cbv
  intro t
  refine ⟨congrArg Option.isSome hargs, _, htokens, fun hnested => ?_⟩
  exact absurd hnested.balanced (by decide)

end PugSize.Script
