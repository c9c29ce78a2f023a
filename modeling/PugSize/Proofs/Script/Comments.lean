import PugSize.Proofs.Script.Bracketed
import PugSize.Proofs.Script.Nesting

/-!
The comments of a text, and the brackets around them. A text whose first token is a brace at its start
and whose last one is a brace at its end is made up of the lexemes between these braces, and its comments
are among them.
-/

namespace PugSize.Script

def Lexeme.isComment (l : Lexeme) : Bool :=
  l.kind == .trivia .lineComment || l.kind == .trivia .blockComment

/-- How many brackets are open behind a lexeme. -/
def Lexeme.depthBehind (depth : Nat) (l : Lexeme) : Nat :=
  match l.kind with
  | .trivia _ => depth
  | .token kind =>
    if kind.opens?.isSome then depth + 1 else if kind.closes?.isSome then depth - 1 else depth

/-- Whether a comment among lexemes stands inside brackets. -/
def commentInside (depth : Nat) : List Lexeme → Bool
  | [] => false
  | l :: ls => (l.isComment && depth != 0) || commentInside (l.depthBehind depth) ls

theorem commentInside_filter (depth : Nat) (ls : List Lexeme) :
    commentInside depth (ls.filter (!Lexeme.isBlank ·)) = commentInside depth ls := by
  induction ls generalizing depth with
  | nil => rfl
  | cons l ls ih =>
      by_cases hblank : l.isBlank = true
      · have hkind : l.kind = .trivia .blank := by simpa [Lexeme.isBlank] using hblank
        rw [List.filter_cons_of_neg (by simp [hblank]), ih, commentInside, Lexeme.depthBehind, hkind]
        simp [Lexeme.isComment, hkind]
      · rw [List.filter_cons_of_pos (by simpa using hblank), commentInside, commentInside, ih]

theorem Lexeme.depthBehind_plain {l : Lexeme} (h : l.isPlain = true) (depth : Nat) :
    l.depthBehind depth = depth := by
  obtain ⟨kind, text⟩ := l
  cases kind with
  | trivia kind => rfl
  | token kind => cases kind <;> first | rfl | cases h

theorem commentInside_opening (shape : Bracket) (depth : Nat) (ls : List Lexeme) :
    commentInside depth (shape.opening :: ls) = commentInside (depth + 1) ls := by
  cases shape <;> rfl

theorem commentInside_closing (shape : Bracket) (depth : Nat) (ls : List Lexeme) :
    commentInside (depth + 1) (shape.closing :: ls) = commentInside depth ls := by
  cases shape <;> rfl

/-- Inside brackets no comment at all may stand. -/
theorem not_comment_of_inside (depth : Nat) (ls : List Lexeme) : (ns : List Node) →
    commentInside (depth + 1) (lexemesOf ns ++ ls) = false →
      (∀ l ∈ lexemesOf ns, l.isComment = false) ∧ commentInside (depth + 1) ls = false
  | [], h => ⟨nofun, h⟩
  | .leaf l plain :: ns, h => by
      rw [lexemesOf_cons, Node.lexemes, List.singleton_append, List.cons_append, commentInside,
        Bool.or_eq_false_iff, Lexeme.depthBehind_plain plain] at h
      obtain ⟨hns, hls⟩ := not_comment_of_inside depth ls ns h.2
      rw [lexemesOf_cons, Node.lexemes, List.singleton_append]
      exact ⟨List.forall_mem_cons.2 ⟨by simpa using h.1, hns⟩, hls⟩
  | .comma :: ns, h => by
      obtain ⟨hns, hls⟩ := not_comment_of_inside depth ls ns h
      exact ⟨List.forall_mem_cons.2 ⟨rfl, hns⟩, hls⟩
  | .group shape inside :: ns, h => by
      rw [lexemesOf_cons, Node.lexemes, List.cons_append, List.append_assoc, List.cons_append,
        commentInside_opening, List.append_assoc, List.singleton_append] at h
      obtain ⟨hinside, hclosing⟩ := not_comment_of_inside (depth + 1) _ inside h
      rw [commentInside_closing] at hclosing
      obtain ⟨hns, hls⟩ := not_comment_of_inside depth ls ns hclosing
      have hbrackets (l : Lexeme) (hl : l = shape.opening ∨ l = shape.closing) : l.isComment = false := by
        obtain rfl | rfl := hl <;> cases shape <;> rfl
      refine ⟨?_, hls⟩
      intro l hl
      simp only [lexemesOf_cons, Node.lexemes, List.mem_append, List.mem_cons, List.not_mem_nil,
        or_false, List.cons_append] at hl
      obtain hl | (hl | hl) | hl := hl
      · exact hbrackets l (.inl hl)
      · exact hinside l hl
      · exact hbrackets l (.inr hl)
      · exact hns l hl
  termination_by ns => sizeOf ns

/-- Outside brackets comments may stand, but not in the groups there. -/
theorem not_comment_of_groups (ns : List Node) (h : commentInside 0 (lexemesOf ns) = false)
    {shape : Bracket} {inside : List Node} (hmem : .group shape inside ∈ ns) :
    ∀ l ∈ lexemesOf inside, l.isComment = false := by
  induction ns with
  | nil => cases hmem
  | cons n ns ih =>
      cases n with
      | leaf l plain =>
          rw [lexemesOf_cons, Node.lexemes, List.singleton_append, commentInside, Bool.or_eq_false_iff,
            Lexeme.depthBehind_plain plain] at h
          exact ih h.2 ((List.mem_cons.1 hmem).resolve_left (by simp))
      | comma => exact ih h ((List.mem_cons.1 hmem).resolve_left (by simp))
      | group shape' inside' =>
          rw [lexemesOf_cons, Node.lexemes, List.cons_append, List.cons_append, commentInside_opening,
            List.append_assoc, List.singleton_append] at h
          obtain ⟨hinside, hclosing⟩ := not_comment_of_inside 0 _ inside' h
          rw [commentInside_closing] at hclosing
          obtain heq | hmem := List.mem_cons.1 hmem
          · cases heq
            exact hinside
          · exact ih hclosing hmem

/-- The comments of a text as they are read, in their order. -/
def comments (t : Text) : List Lexeme := (scan t).1.filter Lexeme.isComment

/-- Whether a text begins with an opening brace and ends with a closing one, each of which is a token of
its own; `ts` are the tokens between them. -/
def Braces (t : Text) (ts : List Token) : Prop :=
  ∃ opening closing : Token, tokenize t = .ok (opening :: ts ++ [closing]) ∧
    opening.kind = .lbrace ∧ opening.start = 0 ∧ closing.kind = .rbrace ∧ closing.stop = t.width

/-- A text in braces, told by the lexemes between them. -/
structure Enclosed (t : Text) (ls : List Lexeme) : Prop where
  text : t = '{' :: written ls ++ ['}']
  legible : Legible ls ['}']

theorem Lexeme.not_isBlank_of_isComment {l : Lexeme} (h : l.isComment = true) : l.isBlank = false := by
  simp only [isComment, Bool.or_eq_true, beq_iff_eq] at h
  obtain h | h := h <;> simp [isBlank, h]

theorem filter_not_blank (ls : List Lexeme) :
    (ls.filter (!Lexeme.isBlank ·)).filter Lexeme.isComment = ls.filter Lexeme.isComment := by
  rw [List.filter_filter]
  refine List.filter_congr fun l _ => ?_
  cases hcomment : l.isComment with
  | false => rfl
  | true => rw [Lexeme.not_isBlank_of_isComment hcomment]; rfl

/-- The comments of lexemes are those of the text that they stand at the front of, up to their end. -/
theorem comments_front {ls : List Lexeme} {after : Text} (h : Legible ls after) :
    comments (written ls ++ after) = ls.filter Lexeme.isComment ++ comments after := by
  induction ls with
  | nil => rfl
  | cons l ls ih =>
      obtain ⟨hl, hls⟩ := h
      rw [written_cons, List.append_assoc]
      by_cases hkind : l.kind = .trivia .blank
      · obtain ⟨c, htext, hc⟩ := (Lexeme.stands_blank hkind).1 hl
        obtain ⟨-, -, hlexemes⟩ := scan_skipped (written ls ++ after) hc 0
        rw [htext, List.singleton_append, List.filter_cons_of_neg (by simp [Lexeme.isComment, hkind]),
          ← ih hls, comments, comments, ← filter_not_blank, hlexemes, filter_not_blank]
      · have hscan : comments (l.text ++ (written ls ++ after)) =
            (l :: (scan (written ls ++ after)).1).filter Lexeme.isComment := by
          rw [comments, scan_stands hl hkind]
        rw [hscan, List.filter_cons, List.filter_cons, ← comments, ih hls]
        split <;> rfl

theorem comments_nil : comments [] = [] := by
  rw [comments, scan_eq_nil rfl]
  rfl

theorem comments_written {ls : List Lexeme} (h : Legible ls []) :
    comments (written ls) = ls.filter Lexeme.isComment := by
  have hfront := comments_front h
  rwa [List.append_nil, comments_nil, List.append_nil] at hfront

/-- In an argument text without comments the rows have none. -/
theorem Layout.not_comment {t : Text} {rows : List Row} {rest : List (List Node)} {after : Text}
    (h : Layout t rows rest after) (hnone : comments t = []) :
    ∀ l ∈ lexemesOf (rowNodes rows rest), l.isComment = false := by
  obtain ⟨tail, rfl, rfl⟩ := h.exists_tail
  have hlegible : Legible (lexemesOf (rowNodes rows rest)) tail := by
    cases tail with
    | nil => exact h.legible.alone
    | cons c tail =>
        obtain ⟨ls, -, hafter, -⟩ := h.ending
        obtain rfl : c = ')' := (List.cons.inj hafter).1
        exact h.legible.swap_head (.cons (by decide)) rfl
  rw [textOf, comments_front hlegible, List.append_eq_nil_iff] at hnone
  simpa [List.filter_eq_nil_iff] using hnone.1

/-- An array or an object that is the first argument has no comments if the whole text has none. -/
theorem comments_first {t : Text} {e : Expr} {args : List Expr} (h : arguments? t = some (e :: args))
    (he : e.isBracketed = true) (hnone : comments t = []) : comments (t.slice e.span) = [] := by
  obtain ⟨rows, rest, after, hlayout, hrows⟩ := arguments?_eq_some.1 h
  have hcomment := hlayout.not_comment hnone
  cases rows with
  | nil => cases hrows
  | cons r rows =>
      obtain ⟨e', hread, hlater⟩ := Option.bind_eq_some_iff.1 hrows
      obtain ⟨args', -, heq⟩ := Option.map_eq_some_iff.1 hlater
      obtain rfl := (List.cons.inj heq).1
      obtain ⟨shape, inside, hcore, hexpr⟩ := core_of_bracketed hread he
      obtain ⟨tail, ht, rfl⟩ := hlayout.exists_tail
      have hnodes : rowNodes (r :: rows) rest =
          r.lead ++ .group shape inside :: (r.trail ++ rowsBehind rows rest) := by
        rw [rowNodes_cons, hcore, List.singleton_append]
      have hlegible := hlayout.legible
      rw [hnodes, lexemesOf_append, lexemesOf_cons] at hlegible hcomment
      have hslice : t.slice e'.span = textOf [.group shape inside] := by
        have hmiddle := Text.slice_middle (textOf r.lead) (textOf [.group shape inside])
          (textOf (r.trail ++ rowsBehind rows rest) ++ tail)
        have htext : t = textOf r.lead ++ textOf [.group shape inside] ++
            (textOf (r.trail ++ rowsBehind rows rest) ++ tail) := by
          rw [ht, hnodes, textOf_append, textOf_cons]
          simp only [List.append_assoc]
        rw [← htext, ← widthOf, ← widthOf, widthOf_group] at hmiddle
        rw [Tree.expr?_span hexpr, Tree.span, Nat.zero_add]
        exact hmiddle
      have hgroup := (legible_append.1 (legible_append.1 hlegible).2).1.alone
      have hwritten := comments_written hgroup
      rw [hslice, textOf, lexemesOf_cons, lexemesOf_nil, List.append_nil, hwritten]
      refine List.filter_eq_nil_iff.2 fun l hl => ?_
      rw [hcomment l (by simp [hl])]
      exact Bool.false_ne_true

/-- A token among those of lexemes is the token of one of them. -/
theorem exists_lexeme {ls : List Lexeme} {offset : Nat} {t : Token} {ts us : List Token}
    (h : Token.ofLexemes offset ls = ts ++ t :: us) :
    ∃ as l bs, ls = as ++ l :: bs ∧ l.kind = .token t.kind ∧ l.text = t.text ∧
      t.start = offset + (written as).width ∧ Token.ofLexemes offset as = ts ∧
      Token.ofLexemes t.stop bs = us := by
  induction ls generalizing offset ts with
  | nil => simp [Token.ofLexemes] at h
  | cons l ls ih =>
      have hlater {ts' : List Token} (h : Token.ofLexemes (offset + l.text.width) ls = ts' ++ t :: us) :
          ∃ as m bs, l :: ls = l :: as ++ m :: bs ∧ m.kind = .token t.kind ∧ m.text = t.text ∧
            t.start = offset + (written (l :: as)).width ∧
            Token.ofLexemes (offset + l.text.width) as = ts' ∧ Token.ofLexemes t.stop bs = us := by
        obtain ⟨as, m, bs, rfl, hkind, htext, hstart, has, hbs⟩ := ih h
        refine ⟨as, m, bs, rfl, hkind, htext, ?_, has, hbs⟩
        rw [hstart, written_cons, Text.width_append, Nat.add_assoc]
      cases hkind : l.kind with
      | trivia kind =>
          simp only [Token.ofLexemes, hkind] at h
          obtain ⟨as, m, bs, hls, hm, htext, hstart, has, hbs⟩ := hlater h
          exact ⟨l :: as, m, bs, hls, hm, htext, hstart, by simpa [Token.ofLexemes, hkind] using has, hbs⟩
      | token kind =>
          simp only [Token.ofLexemes, hkind] at h
          cases ts with
          | nil =>
              obtain ⟨rfl, hus⟩ := List.cons.inj h
              exact ⟨[], l, ls, rfl, hkind, rfl, rfl, rfl, hus⟩
          | cons u ts =>
              obtain ⟨rfl, htail⟩ := List.cons.inj h
              obtain ⟨as, m, bs, hls, hm, htext, hstart, has, hbs⟩ := hlater htail
              exact ⟨l :: as, m, bs, hls, hm, htext, hstart, by simp [Token.ofLexemes, hkind, has], hbs⟩

theorem Legible.eq_nil {ls : List Lexeme} {after : Text} (h : Legible ls after)
    (hwidth : (written ls).width = 0) : ls = [] := by
  cases ls with
  | nil => rfl
  | cons l ls =>
      have hpos := Text.width_pos h.1.ne_nil
      rw [written_cons, Text.width_append] at hwidth
      omega

namespace Enclosed

variable {t : Text} {ls : List Lexeme} (h : Enclosed t ls)

include h

theorem eq_written : t = written (Bracket.curly.opening :: ls ++ [Bracket.curly.closing]) := by
  rw [written_append, written_cons]
  exact h.text

theorem legible_whole : Legible (Bracket.curly.opening :: ls ++ [Bracket.curly.closing]) [] :=
  legible_bracketed.2 h.legible

theorem comments_eq : comments t = ls.filter Lexeme.isComment := by
  rw [h.eq_written, comments_written h.legible_whole, List.cons_append, List.filter_cons,
    List.filter_append]
  exact List.append_nil _

theorem braces : Braces t (Token.ofLexemes 1 ls) := by
  refine ⟨⟨.lbrace, ['{'], 0⟩, ⟨.rbrace, ['}'], 1 + (written ls).width⟩, ?_, rfl, rfl, rfl, ?_⟩
  · refine tokenize_eq_ok.2 ⟨_, h.legible_whole, h.eq_written.symm, ?_⟩
    rw [List.cons_append]
    change _ :: Token.ofLexemes 1 (ls ++ [Bracket.curly.closing]) = _
    rw [ofLexemes_append]
    rfl
  · rw [h.text, List.cons_append, Text.width_cons, Text.width_append]
    change 1 + (written ls).width + 1 = 1 + ((written ls).width + 1)
    omega

end Enclosed

theorem Braces.enclosed {t : Text} {ts : List Token} (h : Braces t ts) :
    ∃ ls, Enclosed t ls ∧ Token.ofLexemes 1 ls = ts := by
  obtain ⟨opening, closing, htokens, hopens, hstart, hcloses, hstop⟩ := h
  obtain ⟨whole, hlegible, hwhole, htokens⟩ := tokenize_eq_ok.1 htokens
  obtain ⟨as, l, bs, rfl, hl, hltext, hlstart, -, hbs⟩ := @exists_lexeme _ _ _ [] _ htokens
  obtain rfl : as = [] := (legible_append.1 hlegible).1.eq_nil (by omega)
  obtain ⟨ls, m, cs, rfl, hm, hmtext, hmstart, hls, -⟩ := exists_lexeme hbs
  have hspelled := hlegible.spelled
  have hopening : l = Bracket.curly.opening := by
    obtain ⟨kind, text⟩ := l
    simp only at hl
    subst hl
    rw [hopens] at hspelled ⊢
    exact (hspelled ⟨.token .lbrace, text⟩ (by simp) .lbrace rfl).opening rfl
  have hclosing : m = Bracket.curly.closing := by
    obtain ⟨kind, text⟩ := m
    simp only at hm
    subst hm
    rw [hcloses] at hspelled ⊢
    exact (hspelled ⟨.token .rbrace, text⟩ (by simp) .rbrace rfl).closing rfl
  subst hopening hclosing
  have hopeningStop : opening.stop = 1 := by
    rw [Token.stop, hstart, ← hltext]
    rfl
  have hclosingStop : closing.stop = 1 + (written ls).width + 1 := by
    rw [Token.stop, hmstart, hopeningStop, ← hmtext]
    rfl
  have hcs : cs = [] := by
    refine (legible_append.1 (legible_append.1 hlegible).2.2).2.2.eq_nil ?_
    have hwidth := congrArg Text.width hwhole
    rw [← hstop, hclosingStop] at hwidth
    simp only [List.nil_append, written_cons, written_append, Text.width_append, Bracket.opening_width,
      Bracket.closing_width] at hwidth
    omega
  subst hcs
  rw [hopeningStop] at hls
  exact ⟨ls, ⟨by rw [← hwhole, List.nil_append, written_cons, written_append]; rfl,
    legible_bracketed.1 hlegible⟩, hls⟩

end PugSize.Script
