import PugSize.Proofs.Edit.WrittenKey

/-!
The ends of nodes. A node other than white space ends with a character that trimming leaves, and the
white space at the end of a text is made up of nodes of its own.
-/

namespace PugSize

open Script CharClass

namespace ObjectText

def isComment : Node → Bool
  | .leaf l _ => l.kind == .trivia .lineComment || l.kind == .trivia .blockComment
  | _ => false

def isLineComment : Node → Bool
  | .leaf l _ => l.kind == .trivia .lineComment
  | _ => false

theorem isLineComment_eq_false {n : Node} (h : n.isTrivia = false) : isLineComment n = false := by
  cases n with
  | leaf l plain =>
      rw [isLineComment, beq_eq_false_iff_ne]
      intro hkind
      simp [Node.isTrivia, hkind] at h
  | comma => rfl
  | group shape inside => rfl

/-- The last character of a token, with its class. -/
theorem last_of_token {l : Lexeme} {rest : Text} (h : l.Stands rest) {kind : TokenKind}
    (hkind : l.kind = .token kind) (depth : Nat) :
    ∃ init c, l.text.zip (ofLexeme depth l) = init ++ [(c, .code depth)] ∧ isSkipped c = false := by
  have hspelling := h.spelling (by rw [hkind]; exact nofun)
  obtain ⟨found, text⟩ := l
  simp only at hkind hspelling
  subst hkind
  have hcode {t : Text} {c : Char} : (t ++ [c]).zip ((t ++ [c]).map fun _ => CharClass.code depth) =
      t.zip (t.map fun _ => CharClass.code depth) ++ [(c, .code depth)] := by
    rw [List.map_append, List.zip_append (by simp)]
    rfl
  cases hspelling with
  | @quoted quote body kind hquote hbody =>
      have hzip : (quote :: body ++ [quote]).zip
          (CharClass.code depth :: List.replicate body.length .literal ++ [.code depth]) =
          (quote :: body).zip (CharClass.code depth :: List.replicate body.length .literal) ++
            [(quote, .code depth)] := by
        rw [List.zip_append (by simp)]
        rfl
      have hlength : (quote :: body ++ [quote]).length - 2 = body.length := by simp
      have hlast {l : Lexeme} (htext : l.text = quote :: body ++ [quote])
          (hclass : ofLexeme depth l =
            .code depth :: List.replicate (l.text.length - 2) .literal ++ [.code depth])
          (hq : isSkipped quote = false) : ∃ init c,
            l.text.zip (ofLexeme depth l) = init ++ [(c, .code depth)] ∧ isSkipped c = false := by
        rw [hclass, htext, hlength]
        exact ⟨_, quote, hzip, hq⟩
      obtain ⟨rfl | rfl, rfl⟩ | ⟨rfl, rfl⟩ := quoteKind?_eq_some hquote
      all_goals exact hlast rfl rfl (by decide)
  | @mark d kind hmark =>
      have hmem := markKind?_eq_some hmark
      simp only [List.mem_cons, Prod.mk.injEq, List.not_mem_nil, or_false] at hmem
      obtain ⟨rfl, rfl⟩ | ⟨rfl, rfl⟩ | ⟨rfl, rfl⟩ | ⟨rfl, rfl⟩ | ⟨rfl, rfl⟩ | ⟨rfl, rfl⟩ |
        ⟨rfl, rfl⟩ | ⟨rfl, rfl⟩ := hmem <;> exact ⟨[], _, rfl, by decide⟩
  | slash => exact ⟨[], _, rfl, by decide⟩
  | word hword hne hneutral =>
      obtain ⟨init, c, rfl⟩ := (List.eq_nil_or_concat text).resolve_left hne
      rw [List.concat_eq_append] at hneutral ⊢
      have hc := hneutral c (by simp)
      simp only [isNeutral, Bool.not_eq_true', Bool.or_eq_false_iff] at hc
      simp only [List.mem_cons, List.not_mem_nil, or_false] at hword
      obtain rfl | rfl | rfl | rfl := hword <;> exact ⟨_, _, hcode, hc.1.2⟩

/-- The last character of a node that is no comment. -/
theorem last_mark {n : Node} {after : Text} (h : Legible n.lexemes after)
    (hcomment : isComment n = false) (depth : Nat) :
    ∃ init c k, nodeMarks depth n = init ++ [(c, .code k)] ∧
      (isGap n = false → Text.isBlank c = false) ∧ (n.isTrivia = false → isSkipped c = false) ∧
      (c = ',' → n = .comma) ∧ isOpening c = false := by
  have hnot {c : Char} (hc : isSkipped c = false) : Text.isBlank c = false := by
    simp only [isSkipped, Bool.or_eq_false_iff] at hc
    exact hc.1
  cases n with
  | leaf l plain =>
      have hl : l.Stands _ := h.1
      cases hkind : l.kind with
      | token kind =>
          obtain ⟨init, c, hmarks, hc⟩ := last_of_token hl hkind depth
          have hplain := code_of_token hl plain hkind
            (show (c, .code depth) ∈ l.text.zip (ofLexeme depth l) by rw [hmarks]; simp)
          simp only [List.mem_cons, List.not_mem_nil, or_false, not_or] at hplain
          refine ⟨init, c, depth, by rw [nodeMarks, hmarks], fun _ => hnot hc, fun _ => hc, ?_, ?_⟩
          · intro hcomma
            exact absurd hcomma hplain.1
          · simp [isOpening, hplain]
      | trivia kind =>
          have hblank : l.kind = .trivia .blank := by
            cases kind
            · exact hkind
            · simp [isComment, hkind] at hcomment
            · simp [isComment, hkind] at hcomment
          obtain ⟨c, htext, hc⟩ := (Lexeme.stands_blank hblank).1 hl
          refine ⟨[], c, depth, by rw [nodeMarks, ofLexeme, hblank, htext]; rfl, ?_, ?_, ?_, ?_⟩
          · intro hgap
            simpa [isGap, hblank, htext] using hgap
          · intro htrivia
            simp [Node.isTrivia, hblank] at htrivia
          · rintro rfl
            cases hc
          · apply Bool.eq_false_iff.2
            intro hopening
            simp only [isOpening, Bool.or_eq_true, beq_iff_eq] at hopening
            obtain (rfl | rfl) | rfl := hopening <;> cases hc
  | comma => exact ⟨[], ',', depth, rfl, fun _ => rfl, fun _ => rfl, fun _ => rfl, rfl⟩
  | group shape inside =>
      have hmarks (c : Char) (hc : shape.closing.text = [c]) : nodeMarks depth (.group shape inside) =
          shape.opening.text.zip [.code depth] ++ marksOf (depth + 1) inside ++
            [(c, .code (depth + 1))] := by
        rw [nodeMarks, hc]
        rfl
      cases shape
      · exact ⟨_, ')', _, hmarks ')' rfl, fun _ => rfl, fun _ => rfl, (absurd · (by decide)), rfl⟩
      · exact ⟨_, ']', _, hmarks ']' rfl, fun _ => rfl, fun _ => rfl, (absurd · (by decide)), rfl⟩
      · exact ⟨_, '}', _, hmarks '}' rfl, fun _ => rfl, fun _ => rfl, (absurd · (by decide)), rfl⟩

theorem last_of_blockComment {l : Lexeme} {rest : Text} (h : l.Stands rest)
    (hkind : l.kind = .trivia .blockComment) : l.text.getLast? = some '/' := by
  have hspelling := h.spelling (by rw [hkind]; exact nofun)
  obtain ⟨found, text⟩ := l
  simp only at hkind hspelling
  subst hkind
  cases hspelling with
  | @blockComment body hbody =>
      have htext : '/' :: '*' :: body ++ ['*', '/'] = ('/' :: '*' :: body ++ ['*']) ++ ['/'] := by simp
      rw [htext, List.getLast?_concat]

/-- The last character of a text of nodes, unless a line comment ends them. -/
theorem last_of_nodes {n : Node} {ns : List Node} {after : Text}
    (h : Legible (lexemesOf (ns ++ [n])) after) (hline : isLineComment n = false) :
    ∃ c, (textOf (ns ++ [n])).getLast? = some c ∧ (isGap n = false → Text.isBlank c = false) ∧
      (c = ',' → n = .comma) ∧ isOpening c = false := by
  rw [lexemesOf_append, lexemesOf_cons, lexemesOf_nil, List.append_nil] at h
  have hn := (legible_append.1 h).2
  rw [textOf_append]
  by_cases hcomment : isComment n = true
  · cases n with
    | leaf l plain =>
        have hkind : l.kind = .trivia .blockComment := by
          simp only [isComment, Bool.or_eq_true, beq_iff_eq] at hcomment
          exact hcomment.resolve_left fun hkind => by simp [isLineComment, hkind] at hline
        have hlast := last_of_blockComment hn.1 hkind
        refine ⟨'/', ?_, fun _ => rfl, (absurd · (by decide)), rfl⟩
        rw [textOf_leaf, List.getLast?_append, hlast]
        rfl
    | comma => cases hcomment
    | group shape inside => cases hcomment
  · obtain ⟨init, c, k, hmarks, hgap, -, hcomma, hopening⟩ := last_mark hn (by simpa using hcomment) 0
    refine ⟨c, ?_, hgap, hcomma, hopening⟩
    have hone : marksOf 0 [n] = nodeMarks 0 n := by rw [marksOf, marksOf, List.append_nil]
    have htext := fst_marksOf (by simpa using hn : Legible (lexemesOf [n]) after) 0
    rw [hone, hmarks, List.map_append] at htext
    rw [← htext, ← List.append_assoc]
    exact List.getLast?_concat

/-- White space at the end of nodes, and nodes that do not end with any. -/
theorem exists_body (ns : List Node) :
    ∃ body gap, ns = body ++ gap ∧ Gap gap ∧ ∀ n, body.getLast? = some n → isGap n = false := by
  induction ns using List.reverseRecOn with
  | nil => exact ⟨[], [], rfl, nofun, nofun⟩
  | append_singleton ns n ih =>
      by_cases hn : isGap n = true
      · obtain ⟨body, gap, rfl, hgap, hbody⟩ := ih
        refine ⟨body, gap ++ [n], by rw [List.append_assoc], ?_, hbody⟩
        intro m hm
        obtain hm | hm := List.mem_append.1 hm
        · exact hgap m hm
        · rwa [List.mem_singleton.1 hm]
      · refine ⟨ns ++ [n], [], by rw [List.append_nil], nofun, ?_⟩
        intro m hm
        rw [List.getLast?_concat, Option.some.injEq] at hm
        rw [← hm]
        simpa using hn

/-- Trimming takes the white space off that stands at the end of nodes. -/
theorem trimEnd_nodes {front : Text} {body gap : List Node} {after : Text} (hgap : Gap gap)
    (hfront : ∀ c, front.getLast? = some c → Text.isBlank c = false)
    (h : Legible (lexemesOf body) after)
    (hbody : ∀ n, body.getLast? = some n → isGap n = false ∧ isLineComment n = false) :
    Text.trimEnd (front ++ textOf (body ++ gap)) = front ++ textOf body := by
  rw [textOf_append, ← List.append_assoc]
  refine Text.trimEnd_append hgap.text ?_
  intro c hc
  obtain rfl | ⟨init, n, rfl⟩ := List.eq_nil_or_concat body
  · rw [textOf_nil, List.append_nil] at hc
    exact hfront c hc
  · rw [List.concat_eq_append] at h hbody hc
    obtain ⟨hn, hline⟩ := hbody n List.getLast?_concat
    obtain ⟨d, hd, hblank, -, -⟩ := last_of_nodes h hline
    rw [List.getLast?_append, hd, Option.some_or, Option.some.injEq] at hc
    rw [← hc]
    exact hblank hn

theorem text_of_isGap {n : Node} {after : Text} (h : Legible n.lexemes after) (hn : isGap n = true) :
    ∃ c, textOf [n] = [c] := by
  cases n with
  | leaf l plain =>
      simp only [isGap, Bool.and_eq_true, beq_iff_eq] at hn
      obtain ⟨c, htext, -⟩ := (Lexeme.stands_blank hn.1).1 h.1
      exact ⟨c, by rw [textOf_leaf, htext]⟩
  | comma => cases hn
  | group shape inside => cases hn

/-- Before a text that does not begin with a line feed there is no line comment. -/
theorem not_isLineComment {n : Node} {c : Char} {after : Text} (h : Legible n.lexemes (c :: after))
    (hc : c ≠ '\n') : isLineComment n = false := by
  apply Bool.eq_false_iff.2
  intro hcomment
  cases n with
  | leaf l plain =>
      simp only [isLineComment, beq_iff_eq] at hcomment
      have hl : l.Stands (c :: after) := h.1
      exact hc ((hl.lineComment hcomment).2 c rfl)
  | comma => cases hcomment
  | group shape inside => cases hcomment

/-- White space at the end of a text is made up of nodes of its own; only its first character may be
a line feed, for that ends a line comment. -/
theorem exists_gap_suffix {w : Text} (hw : ∀ c ∈ w, Text.isBlank c = true) (hline : '\n' ∉ w.tail)
    {u : Text} {d : Char} {after : Text} {ns : List Node} (h : Legible (lexemesOf ns) (d :: after))
    (hd : d ≠ '\n') (ht : textOf ns = u ++ w) :
    ∃ front gap, ns = front ++ gap ∧ Gap gap ∧ textOf front = u ∧ textOf gap = w := by
  induction w using List.reverseRecOn generalizing ns d after with
  | nil => exact ⟨ns, [], by rw [List.append_nil], nofun, by rw [ht, List.append_nil], rfl⟩
  | append_singleton w c ih =>
      have hc := hw c (by simp)
      obtain rfl | ⟨ns, n, rfl⟩ := List.eq_nil_or_concat ns
      · have := congrArg List.length ht
        simp at this
      rw [List.concat_eq_append] at h ht ⊢
      have hparts := h
      rw [lexemesOf_append, lexemesOf_cons, lexemesOf_nil, List.append_nil] at hparts
      obtain ⟨hns, hn⟩ := legible_append.1 hparts
      obtain ⟨e, he, hblank, -, -⟩ := last_of_nodes h (not_isLineComment hn hd)
      rw [ht, ← List.append_assoc, List.getLast?_concat, Option.some.injEq] at he
      subst he
      have hgap : isGap n = true := by
        apply Classical.byContradiction
        intro hn
        rw [hblank (by simpa using hn)] at hc
        cases hc
      obtain ⟨e, hne⟩ := text_of_isGap hn hgap
      rw [textOf_append, hne, ← List.append_assoc] at ht
      obtain ⟨ht, hce⟩ := List.append_inj' ht rfl
      cases w with
      | nil =>
          refine ⟨ns, [n], rfl, ?_, by rw [ht, List.append_nil], by rw [hne, hce]; rfl⟩
          intro m hm
          rwa [List.mem_singleton.1 hm]
      | cons b w =>
          have hcn : c ≠ '\n' := by
            rintro rfl
            exact hline (by simp)
          have hc' : written n.lexemes = [c] := by
            rw [← hce, ← hne, textOf, lexemesOf_cons, lexemesOf_nil, List.append_nil]
          rw [hc', List.singleton_append] at hns
          obtain ⟨front, gap, rfl, hfront, hu, hgapText⟩ := ih (fun x hx => hw x (List.mem_append_left _ hx))
            (fun hmem => hline (List.mem_append_left _ hmem)) hns hcn ht
          refine ⟨front, gap ++ [n], by rw [List.append_assoc], ?_, hu, ?_⟩
          · intro m hm
            obtain hm | hm := List.mem_append.1 hm
            · exact hfront m hm
            · rwa [List.mem_singleton.1 hm]
          · rw [textOf_append, hgapText, hne, hce]

end ObjectText
end PugSize
