import PugSize.Proofs.Script.Comments
import PugSize.Proofs.Script.CutOut
import PugSize.Proofs.Script.LongestLexeme

/-!
What the tokens of a text are. They stand on stretches of the text one behind the other with nothing
but white space and complete comments between them, and each is the longest that stands where it begins.
The text cut from one token to another has the tokens in between and no others. A text without tokens
has them up to the place where nothing can be cut off.
-/

namespace PugSize.Script

/-- White space and complete comments, before a text. -/
inductive Skipped (after : Text) : Text → Prop
  | nil : Skipped after []
  | blank {c : Char} {t : Text} (hc : isSkipped c = true) (later : Skipped after t) :
      Skipped after (c :: t)
  | lineComment {body t : Text} (h : '\n' ∉ body) (ends : ∀ c, (t ++ after).head? = some c → c = '\n')
      (later : Skipped after t) : Skipped after ('/' :: '/' :: (body ++ t))
  | blockComment {body t : Text} (h : BlockBody body) (later : Skipped after t) :
      Skipped after ('/' :: '*' :: (body ++ '*' :: '/' :: t))

theorem Skipped.append {a b after : Text} (h : Skipped (b ++ after) a) (h' : Skipped after b) :
    Skipped after (a ++ b) := by
  induction h with
  | nil => exact h'
  | blank hc later ih => exact .blank hc ih
  | lineComment hbody ends later ih =>
      rw [List.cons_append, List.cons_append, List.append_assoc]
      exact .lineComment hbody (by rwa [List.append_assoc]) ih
  | blockComment hbody later ih =>
      rw [List.cons_append, List.cons_append, List.append_assoc]
      exact .blockComment hbody ih

theorem Lexeme.Stands.skipped {l : Lexeme} {rest : Text} {kind : Trivia} (h : l.Stands rest)
    (hkind : l.kind = .trivia kind) : Skipped rest l.text := by
  cases kind with
  | blank =>
      obtain ⟨c, htext, hc⟩ := (stands_blank hkind).1 h
      rw [htext]
      exact .blank hc .nil
  | lineComment =>
      obtain ⟨⟨body, htext, hbody⟩, hrest⟩ := h.lineComment hkind
      rw [htext, ← List.append_nil body]
      exact .lineComment hbody hrest .nil
  | blockComment =>
      have hspelling := h.spelling (by rw [hkind]; exact nofun)
      obtain ⟨kind, text⟩ := l
      subst hkind
      cases hspelling with
      | blockComment hbody => exact .blockComment hbody .nil

/-- The stretches before, between and behind tokens. -/
def gaps (stop : Nat) (start : Nat) : List Token → List Span
  | [] => [⟨start, stop⟩]
  | t :: ts => ⟨start, t.start⟩ :: gaps stop t.stop ts

/-- Whether tokens are those that a text is cut into from the left. -/
structure Cut (t : Text) (ts : List Token) : Prop where
  whole : ∀ tok ∈ ts, ∃ front back, t = front ++ tok.text ++ back ∧ tok.start = front.width
  filled : ∀ tok ∈ ts, tok.start < tok.stop
  inOrder : Span.InOrder (ts.map Token.span)
  inClass : ∀ tok ∈ ts, InClass (.token tok.kind) tok.text
  longest : ∀ tok ∈ ts, ∀ kind p, p <+: t.dropBytes tok.start → InClass kind p →
    p.length ≤ tok.text.length
  skipped : ∀ gap ∈ gaps t.width 0 ts, gap.start ≤ gap.stop ∧
    Skipped (t.dropBytes gap.stop) (t.slice gap)

theorem ofLexemes_inOrder (offset : Nat) (ls : List Lexeme) :
    Span.InOrder ((Token.ofLexemes offset ls).map Token.span) ∧
      ∀ tok ∈ Token.ofLexemes offset ls, offset ≤ tok.start := by
  induction ls generalizing offset with
  | nil => exact ⟨.nil, nofun⟩
  | cons l ls ih =>
      obtain ⟨horder, hstart⟩ := ih (offset + l.text.width)
      have hle : ∀ tok ∈ Token.ofLexemes (offset + l.text.width) ls, offset ≤ tok.start :=
        fun tok htok => Nat.le_trans (Nat.le_add_right _ _) (hstart tok htok)
      cases hkind : l.kind with
      | trivia kind =>
          simp only [Token.ofLexemes, hkind]
          exact ⟨horder, hle⟩
      | token kind =>
          simp only [Token.ofLexemes, hkind]
          refine ⟨List.pairwise_cons.2 ⟨fun s hs => ?_, horder⟩,
            List.forall_mem_cons.2 ⟨Nat.le_refl _, hle⟩⟩
          obtain ⟨tok, htok, rfl⟩ := List.mem_map.1 hs
          exact hstart tok htok

theorem skipped_slice {t front gap rest : Text} (ht : t = front ++ gap ++ rest)
    (hgap : Skipped rest gap) :
    let s : Span := ⟨front.width, front.width + gap.width⟩
    s.start ≤ s.stop ∧ Skipped (t.dropBytes s.stop) (t.slice s) := by
  have hdrop : t.dropBytes (front.width + gap.width) = rest := by
    rw [ht, ← Text.width_append, Text.dropBytes_width]
  have hslice : t.slice ⟨front.width, front.width + gap.width⟩ = gap := by
    rw [ht, Text.slice_middle]
  exact ⟨Nat.le_add_right _ _, by rwa [hdrop, hslice]⟩

/-- What stands before, between and behind the tokens of lexemes is skipped. The lexemes stand behind a
front of the text and some of what is skipped. -/
theorem Legible.skipped {ls : List Lexeme} (h : Legible ls []) {t front gap : Text}
    (ht : t = front ++ gap ++ written ls) (hgap : Skipped (written ls) gap) :
    ∀ s ∈ gaps t.width front.width (Token.ofLexemes (front.width + gap.width) ls),
      s.start ≤ s.stop ∧ Skipped (t.dropBytes s.stop) (t.slice s) := by
  have hslice := skipped_slice ht hgap
  induction ls generalizing front gap with
  | nil =>
      have hwidth : t.width = front.width + gap.width := by simp [ht]
      rw [Token.ofLexemes, gaps, hwidth]
      exact List.forall_mem_singleton.2 hslice
  | cons l ls ih =>
      obtain ⟨hl, hls⟩ := h
      rw [List.append_nil] at hl
      rw [written_cons] at ht hgap
      cases hkind : l.kind with
      | trivia kind =>
          have hskipped := hgap.append (hl.skipped hkind)
          have htext : t = front ++ (gap ++ l.text) ++ written ls := by simp [ht]
          have hlater := ih hls htext hskipped (skipped_slice htext hskipped)
          rw [Text.width_append, ← Nat.add_assoc] at hlater
          simpa only [Token.ofLexemes, hkind] using hlater
      | token kind =>
          have htext : t = front ++ gap ++ l.text ++ [] ++ written ls := by simp [ht]
          have hlater := ih hls htext .nil (skipped_slice htext .nil)
          rw [Text.width_nil, Nat.add_zero, Text.width_append, Text.width_append] at hlater
          simp only [Token.ofLexemes, hkind]
          exact List.forall_mem_cons.2 ⟨hslice, hlater⟩

theorem Legible.cut {ls : List Lexeme} (h : Legible ls []) : Cut (written ls) (Token.ofLexemes 0 ls) := by
  have hlexeme : ∀ tok ∈ Token.ofLexemes 0 ls, ∃ front back, written ls = front ++ (tok.text ++ back) ∧
      tok.start = front.width ∧ firstLexeme? (tok.text ++ back) = some (.token tok.kind, tok.text.length) := by
    intro tok htok
    obtain ⟨ts, us, hts⟩ := List.append_of_mem htok
    obtain ⟨as, l, bs, rfl, hkind, htext, hstart, -, -⟩ := exists_lexeme hts
    have hl := (legible_append.1 h).2.1
    rw [Lexeme.stands_other (by rw [hkind]; exact nofun), hkind, List.append_nil, htext] at hl
    refine ⟨written as, written bs, ?_, by rw [hstart, Nat.zero_add], hl⟩
    rw [written_append, written_cons, htext]
  refine ⟨fun tok htok => ?_, fun tok htok => ?_, (ofLexemes_inOrder 0 ls).1, fun tok htok => ?_,
    fun tok htok kind p hbegins hp => ?_, ?_⟩
  · obtain ⟨front, back, htext, hstart, -⟩ := hlexeme tok htok
    exact ⟨front, back, by rw [htext, List.append_assoc], hstart⟩
  · obtain ⟨front, back, -, -, hfirst⟩ := hlexeme tok htok
    have := Text.width_pos (List.length_pos_iff.1 (firstLexeme?_length_pos hfirst))
    rw [Token.stop]
    omega
  · obtain ⟨front, back, -, -, hfirst⟩ := hlexeme tok htok
    have hclass := inClass_of_firstLexeme? hfirst
    rwa [List.take_left] at hclass
  · obtain ⟨front, back, htext, hstart, hfirst⟩ := hlexeme tok htok
    rw [htext, hstart, Text.dropBytes_width] at hbegins
    exact length_le_firstLexeme? hfirst hp hbegins
  · exact @Legible.skipped ls h (written ls) [] [] rfl .nil

theorem ofLexemes_shift (n offset : Nat) (ls : List Lexeme) :
    Token.ofLexemes (offset + n) ls = (Token.ofLexemes offset ls).map (Token.shift n) := by
  induction ls generalizing offset with
  | nil => rfl
  | cons l ls ih =>
      have hnext : offset + n + l.text.width = offset + l.text.width + n := by omega
      cases hkind : l.kind with
      | trivia kind => simp only [Token.ofLexemes, hkind, hnext, ih]
      | token kind => simp only [Token.ofLexemes, hkind, hnext, ih, List.map_cons, Token.shift]

theorem ofLexemes_token {l : Lexeme} {tok : Token} (hkind : l.kind = .token tok.kind)
    (htext : l.text = tok.text) (ls : List Lexeme) :
    Token.ofLexemes tok.start (l :: ls) = tok :: Token.ofLexemes tok.stop ls := by
  simp only [Token.ofLexemes, hkind, htext, Token.stop]

/-- The lexemes from one token to another. -/
theorem exists_between {ls : List Lexeme} {first last : Token} {before behind window : List Token}
    (h : Token.ofLexemes 0 ls = before ++ window ++ behind) (hfirst : window.head? = some first)
    (hlast : window.getLast? = some last) :
    ∃ as bs cs, ls = as ++ bs ++ cs ∧ first.start = (written as).width ∧
      last.stop = first.start + (written bs).width ∧ Token.ofLexemes first.start bs = window := by
  obtain ⟨rest, rfl⟩ := List.head?_eq_some_iff.1 hfirst
  rw [List.append_assoc, List.cons_append] at h
  obtain ⟨as, l, bs, rfl, hkind, htext, hstart, -, hbs⟩ := exists_lexeme h
  rw [Nat.zero_add] at hstart
  obtain rfl | ⟨inner, last', rfl⟩ := List.eq_nil_or_concat rest
  · obtain rfl : first = last := Option.some.inj hlast
    refine ⟨as, [l], bs, by rw [List.append_assoc, List.singleton_append], hstart, ?_,
      ofLexemes_token hkind htext []⟩
    rw [Token.stop, written_cons, written_nil, List.append_nil, htext]
  · rw [List.concat_eq_append, ← List.cons_append, List.getLast?_concat] at hlast
    obtain rfl : last' = last := Option.some.inj hlast
    rw [List.concat_eq_append, List.append_assoc, List.singleton_append] at hbs
    obtain ⟨ms, m, cs, rfl, hmkind, hmtext, hmstart, hms, -⟩ := exists_lexeme hbs
    refine ⟨as, l :: (ms ++ [m]), cs, by simp, hstart, ?_, ?_⟩
    · rw [Token.stop, hmstart, Token.stop, ← htext, ← hmtext]
      simp [Nat.add_assoc]
    · rw [ofLexemes_token hkind htext, ofLexemes_append, hms, ← hmstart, ofLexemes_token hmkind hmtext,
        List.concat_eq_append]
      rfl

/-- The text cut from one token to another has the tokens in between. -/
theorem tokenize_between {t : Text} {first last : Token} {before behind window : List Token}
    (h : tokenize t = .ok (before ++ window ++ behind)) (hfirst : window.head? = some first)
    (hlast : window.getLast? = some last) :
    ∃ ts, tokenize (t.slice ⟨first.start, last.stop⟩) = .ok ts ∧
      ts.map (Token.shift first.start) = window := by
  obtain ⟨ls, hlegible, rfl, htokens⟩ := tokenize_eq_ok.1 h
  obtain ⟨as, bs, cs, rfl, hstart, hstop, hwindow⟩ := exists_between htokens hfirst hlast
  have hbs := (legible_append.1 (legible_append.1 hlegible).1).2.alone
  refine ⟨Token.ofLexemes 0 bs, ?_, ?_⟩
  · rw [hstop, hstart, written_append, written_append, Text.slice_middle]
    exact tokenize_eq_ok.2 ⟨bs, hbs, rfl, rfl⟩
  · rw [← ofLexemes_shift, Nat.zero_add, hwindow]

theorem firstLexeme?_scan (t : Text) : firstLexeme? (scan t).2 = none := by
  fun_induction scan t with
  | case1 t h => exact h
  | case2 t kind n h later rest hscan ih => rwa [hscan] at ih

/-- Where no lexeme begins, the text before has tokens, and no text of any class stands there unless it
is a slash before a block comment that is never closed. -/
theorem tokenize_eq_error {t : Text} {offset : Nat} (h : tokenize t = .error offset) :
    ∃ front rest, t = front ++ rest ∧ offset = front.width ∧ rest ≠ [] ∧
      (∃ ts, tokenize front = .ok ts) ∧
      (Unclosed rest ∨ ∀ kind p, p <+: rest → ¬ InClass kind p) := by
  obtain ⟨ls, hlegible, hwritten⟩ := exists_legible t
  have hflatten := scan_flatten t
  have hnone := unclosed_or_of_firstLexeme? (firstLexeme?_scan t)
  unfold tokenize at h
  split at h
  · cases h
  · rename_i found c rest hscan
    cases h
    rw [hscan] at hlegible hwritten hflatten hnone
    have hfront : (found.map Lexeme.text).flatten = written ls :=
      List.append_cancel_right (hflatten.trans hwritten.symm)
    exact ⟨written ls, c :: rest, hwritten.symm, congrArg Text.width hfront, List.cons_ne_nil _ _,
      ⟨_, tokenize_eq_ok.2 ⟨ls, hlegible.alone, rfl, rfl⟩⟩, hnone⟩

/-- What is read from a text. Its tokens are cut from the left with nothing but white space and comments
around them, and from one of them to another the text is read as those in between. A text that is not
read is read up to the offset that is reported, where nothing can be cut off. -/
theorem tokenize_cuts (t : Text) :
    match tokenize t with
    | .ok ts => Cut t ts ∧ ∀ i j first last, i ≤ j → ts[i]? = some first → ts[j]? = some last →
        ∃ us, tokenize (t.slice ⟨first.start, last.stop⟩) = .ok us ∧
          us.map (Token.shift first.start) = (ts.take (j + 1)).drop i
    | .error offset => ∃ front rest, t = front ++ rest ∧ offset = front.width ∧ rest ≠ [] ∧
        (∃ ts, tokenize front = .ok ts) ∧
        (Unclosed rest ∨ ∀ kind p, p <+: rest → ¬ InClass kind p) := by
  split
  · rename_i ts hts
    constructor
    · obtain ⟨ls, hlegible, rfl, rfl⟩ := tokenize_eq_ok.1 hts
      exact hlegible.cut
    · intro i j first last hij hfirst hlast
      have hj : j < ts.length := (List.getElem?_eq_some_iff.1 hlast).1
      have hsplit : ts = ts.take i ++ (ts.take (j + 1)).drop i ++ ts.drop (j + 1) := by
        have hfront : ts.take i = (ts.take (j + 1)).take i := by
          rw [List.take_take, Nat.min_eq_left (by omega)]
        rw [hfront, List.take_append_drop, List.take_append_drop]
      apply tokenize_between (hsplit ▸ hts)
      · rw [List.head?_drop, List.getElem?_take_of_lt (by omega), hfirst]
      · rw [List.getLast?_drop, if_neg (by rw [List.length_take]; omega), List.getLast?_take]
        simp [hlast]
  · rename_i offset herror
    exact tokenize_eq_error herror

/-- An exponent, points and a hexadecimal number that are begun and given up, and an open comment. -/
theorem tokenize_cuts_backtracking :
    let t : Text := "1e+ .. 0x/**/...".toList
    (∃ ts, tokenize t = .ok ts ∧ ts.map Token.span =
        [⟨0, 1⟩, ⟨1, 2⟩, ⟨2, 3⟩, ⟨4, 5⟩, ⟨5, 6⟩, ⟨7, 8⟩, ⟨8, 9⟩, ⟨13, 16⟩] ∧ Cut t ts ∧
      ∃ us, tokenize (t.slice ⟨1, 9⟩) = .ok us ∧ us.map (Token.shift 1) = (ts.take 7).drop 1) ∧
    ∃ front rest : Text, "'é'/*/".toList = front ++ rest ∧ 4 = front.width ∧ rest ≠ [] ∧
      (∃ ts, tokenize front = .ok ts) ∧
      (Unclosed rest ∨ ∀ kind p, p <+: rest → ¬ InClass kind p) := by
  intro t
  have hcuts := tokenize_cuts t
  have hopen := tokenize_cuts "'é'/*/".toList
  have htokens : tokenize t = .ok [⟨.number, ['1'], 0⟩, ⟨.ident, ['e'], 1⟩, ⟨.punct, ['+'], 2⟩,
      ⟨.punct, ['.'], 4⟩, ⟨.punct, ['.'], 5⟩, ⟨.number, ['0'], 7⟩, ⟨.ident, ['x'], 8⟩,
      ⟨.spread, ['.', '.', '.'], 13⟩] := by decide +kernel
  have herror : tokenize "'é'/*/".toList = .error 4 := by decide +kernel
  rw [htokens] at hcuts
  rw [herror] at hopen
  exact ⟨⟨_, htokens, rfl, hcuts.1, hcuts.2 1 6 _ _ (by decide) rfl rfl⟩, hopen⟩

end PugSize.Script
