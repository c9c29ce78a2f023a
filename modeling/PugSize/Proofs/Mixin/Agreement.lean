import Mathlib
import PugSize.Proofs.Mixin.PlainRows

/-!
The scanner for calls and the reader of arguments. On a text that is read as arguments, the two agree
on where the call around it ends, unless the text ends in a comment that takes in the closing
parenthesis: such a text is read as arguments all the same, but the scanner ends the call elsewhere
or finds no end.
-/

namespace PugSize

namespace Script

/-- Whether a parenthesis put behind a text is a token of its own, and the last one. -/
def closesBehind (t : Text) : Bool :=
  match tokenize (t ++ [')']) with
  | .ok ts => ts.getLast?.map Token.start == some t.width
  | .error _ => false

theorem Layout.closesBehind_iff {t : Text} {rows : List Row} {rest : List (List Node)} {after : Text}
    (h : Layout t rows rest after) : closesBehind t = true ↔ after = [')'] := by
  obtain ⟨tail, rfl, hafter⟩ := h.exists_tail
  have htokens := h.ending.tokenize h.legible
  change tokenize (textOf _ ++ after) = _ at htokens
  have hstart : (written (lexemesOf (rowNodes rows rest))).width =
      (textOf (rowNodes rows rest)).width := rfl
  rw [closesBehind, h.text, htokens]
  simp only [List.getLast?_concat, Option.map_some, beq_iff_eq, Option.some.injEq, hstart,
    Text.width_append, hafter, List.append_left_eq_self]
  cases tail with
  | nil => simp
  | cons c cs =>
      have hpos := Text.width_pos (List.cons_ne_nil c cs)
      simp only [reduceCtorEq, iff_false]
      omega

end Script

namespace Buffer

theorem dropReturns_append_cons (a b : Text) {c : Char} (hc : c ≠ '\n') :
    dropReturns (a ++ c :: b) = dropReturns a ++ dropReturns (c :: b) :=
  dropReturns_append fun _ => by simpa using hc

end Buffer

namespace MixinCall

open Script

/-- What stands from a place of the document on, if that is within a line, is read with its carriage
returns dropped, but for one at the very end. -/
theorem textFrom_behind {b : Buffer} {front more : Text} {c : Char}
    (hb : b.text = front ++ c :: more) (hc : c ≠ '\n') :
    ∃ last, (last = [] ∨ last = ['\r']) ∧
      Buffer.dropReturns (c :: more) = textFrom b (Position.behind front) ++ last := by
  obtain ⟨part, first, rest, hsplit, -, hlength, hdrop, -⟩ := Buffer.splitLines_cut front (c :: more)
  have hfirst : first ≠ [] := by
    rintro rfl
    simp only [Text.splitLines, hc, if_false] at hsplit
    split at hsplit <;> simp at hsplit
  have hlines : ∀ l ∈ first :: rest, '\n' ∉ l := by
    rw [← hsplit]
    exact fun l hl => Text.not_mem_of_mem_splitLines hl
  obtain ⟨last, hlast, hreturns⟩ := Buffer.dropReturns_joinLines first rest hlines
  rw [← hsplit, Text.joinLines_splitLines, hsplit] at hreturns
  refine ⟨last, hlast, ?_⟩
  rw [hreturns, textFrom, Buffer.rawLines, hb, hdrop, List.map_cons, List.map_cons,
    Text.stripReturn_append hfirst, ← hlength]
  simp only [List.drop_left]

/-- From the marker of a call on, a document is read as it stands up to the parenthesis behind the
arguments. -/
theorem textFrom_marker {b : Buffer} {front name t rest : Text}
    (hname : ∀ c ∈ name, isNameChar c = true) (hreturn : '\r' ∉ t)
    (hb : b.text = front ++ (marker name ++ (t ++ ')' :: rest))) :
    ∃ rest', textFrom b (Position.behind front) = marker name ++ (t ++ ')' :: rest') := by
  have hopening : '\n' ∉ '+' :: name := by
    rw [List.mem_cons, not_or]
    exact ⟨by decide, fun hc => absurd (hname _ hc) (by decide)⟩
  have hargs : '\r' ∉ '(' :: t := by
    rw [List.mem_cons, not_or]
    exact ⟨by decide, hreturn⟩
  have hclosing : Buffer.dropReturns (')' :: rest) = ')' :: Buffer.dropReturns rest := by
    rw [Buffer.dropReturns, if_neg (fun h => absurd h.1 (by decide))]
  have hcall : marker name ++ (t ++ ')' :: rest) = ('+' :: name ++ '(' :: t) ++ ')' :: rest := by
    simp [marker]
  have hkept : Buffer.dropReturns (marker name ++ (t ++ ')' :: rest)) =
      marker name ++ t ++ [')'] ++ Buffer.dropReturns rest := by
    rw [hcall, Buffer.dropReturns_append_cons _ _ (by decide),
      Buffer.dropReturns_append_cons _ _ (by decide), Buffer.dropReturns_of_not_mem hopening,
      Buffer.dropReturns_of_no_return hargs, hclosing]
    simp [marker]
  obtain ⟨last, hlast, hreturns⟩ := textFrom_behind hb (by decide)
  have hread : marker name ++ t ++ [')'] ++ Buffer.dropReturns rest =
      textFrom b (Position.behind front) ++ last := hkept.symm.trans hreturns
  obtain ⟨rest', hrest', -⟩ | ⟨cut, hcut, hshort⟩ := List.append_eq_append_iff.1 hread
  · exact ⟨rest', by rw [hrest']; simp⟩
  · obtain rfl | ⟨cut, c, rfl⟩ := List.eq_nil_or_concat cut
    · exact ⟨[], by rw [List.append_nil] at hcut; rw [← hcut]; simp⟩
    · rw [List.concat_eq_append, ← List.append_assoc] at hcut
      obtain rfl : ')' = c := List.singleton_inj.1 (List.append_inj' hcut rfl).2
      have hmem : ')' ∈ last := by rw [hshort]; simp
      obtain rfl | rfl := hlast <;> exact absurd hmem (by decide)

/-- The scanner finds the closing parenthesis behind a text that is read as arguments if and only if
the reader does. -/
theorem extent?_arguments {name t rest : Text} {args : List Expr}
    (hname : ∀ c ∈ name, isNameChar c = true) (hargs : arguments? t = some args)
    (hcomment : ¬ ['/', '*'] <:+: t) (hline : ¬ ['\\', '\n'] <:+: t) (hreturn : '\r' ∉ t) :
    extent? (marker name ++ (t ++ ')' :: rest)) = some (marker name, t) ↔ closesBehind t = true := by
  obtain ⟨rows, segs, after, hlayout, -⟩ := arguments?_eq_some.1 hargs
  obtain ⟨tail, htext, hafter⟩ := hlayout.exists_tail
  have hwithin : textOf (rowNodes rows segs) <:+: t := ⟨[], tail, htext.symm⟩
  have hplain := plain_of_text hlayout.legible (fun h => hcomment (h.trans hwithin))
    (fun h => hline (h.trans hwithin)) (fun h => hreturn (hwithin.subset h))
  rw [hlayout.closesBehind_iff]
  constructor
  · exact fun hextent => (arguments_eq hname hextent hlayout hplain).2
  · intro hshort
    have htail : tail = [] := by simpa [hafter] using hshort
    rw [htail, List.append_nil] at htext
    have hlegible := hlayout.legible.swap_head (.cons (by decide))
      (by rw [hshort]; rfl : (')' :: rest).head? = after.head?)
    rw [htext]
    exact extent?_nodes hname hlegible fun l hl => (hplain l hl).1

/-- The scanner and the reader agree on where a call ends. From the plus sign of its marker, wherever
in a document that is, the scanner reads a call whose arguments are read as such through the
parenthesis behind them, unless a comment at their end takes that parenthesis in. The arguments may
have no block comment, no line end behind a backslash and no carriage return: the scanner knows none
of them. -/
theorem read?_arguments {b : Buffer} {front name t rest : Text} {args : List Expr}
    (hdoc : b.text = front ++ (marker name ++ (t ++ ')' :: rest)))
    (hname : ∀ c ∈ name, isNameChar c = true) (hargs : arguments? t = some args)
    (hcomment : ¬ ['/', '*'] <:+: t) (hline : ¬ ['\\', '\n'] <:+: t) (hreturn : '\r' ∉ t) :
    read? b (Position.behind front) name = some
      { name
        start := Position.behind front
        stop := Position.behind (front ++ (marker name ++ t ++ [')']))
        text := marker name ++ t ++ [')']
        arguments := t
        argumentsOffset := (marker name).width } ↔ closesBehind t = true := by
  obtain ⟨rest', hfrom⟩ := textFrom_marker hname hreturn hdoc
  rw [← @extent?_arguments name t rest' args hname hargs hcomment hline hreturn, read?, hfrom,
    extent?_marker hname]
  rw [Position.behind_append]
  constructor
  · intro h
    obtain ⟨⟨opening, inside⟩, hextent, hcall⟩ := Option.map_eq_some_iff.1 h
    obtain ⟨n, hn, hparts⟩ := Option.map_eq_some_iff.1 hextent
    rw [Prod.mk.injEq] at hparts
    obtain ⟨rfl, rfl⟩ := hparts
    have hinside := congrArg MixinCall.arguments hcall
    simp only at hinside
    rw [hn, Option.map_some, hinside]
  · intro h
    rw [h]
    rfl

theorem read?_arguments_lines :
    let t := "'it\\')', f([1], (2)) // it's (\n, \x60\n(\x60".toList
    let document := "p\r\n  +img('it\\')', f([1], (2)) // it's (\n, \x60\n(\x60)\r\nq".toList
    (arguments? t).isSome = true ∧ closesBehind t = true ∧
      read? (Buffer.ofText document) ⟨1, 2⟩ "img".toList = some
        { name := "img".toList
          start := ⟨1, 2⟩
          stop := ⟨3, 3⟩
          text := marker "img".toList ++ t ++ [')']
          arguments := t
          argumentsOffset := 5 } := by
  have hargs : arguments? "'it\\')', f([1], (2)) // it's (\n, \x60\n(\x60".toList =
      some [.str "it')".toList ⟨0, 7⟩, .other ⟨9, 20⟩, .other ⟨33, 37⟩] := by cbv
  have hcloses : closesBehind "'it\\')', f([1], (2)) // it's (\n, \x60\n(\x60".toList = true := by
    cbv
  have hline : ¬ ['\\', '\n'] <:+: "'it\\')', f([1], (2)) // it's (\n, \x60\n(\x60".toList := by
    simp [List.infix_cons_iff]
  have hcomment : ¬ ['/', '*'] <:+: "'it\\')', f([1], (2)) // it's (\n, \x60\n(\x60".toList :=
    fun h => absurd (h.subset (by simp : '*' ∈ ['/', '*'])) (by simp)
  have hdoc : (Buffer.ofText
      "p\r\n  +img('it\\')', f([1], (2)) // it's (\n, \x60\n(\x60)\r\nq".toList).text =
        "p\r\n  ".toList ++ (marker "img".toList ++
          ("'it\\')', f([1], (2)) // it's (\n, \x60\n(\x60".toList ++ ')' :: "\r\nq".toList)) := rfl
  have hread := (read?_arguments hdoc (List.all_eq_true.1 (by decide)) hargs hcomment hline (by simp)).2 hcloses
  intro t document
  exact ⟨congrArg Option.isSome hargs, hcloses, hread⟩

/-- A comment behind a closing parenthesis takes in the one behind the text. The reader takes the
first for it, and so does the scanner, which leaves the comment out. -/
theorem read?_arguments_swallowed :
    let t := "a) //".toList
    (arguments? t).isSome = true ∧ closesBehind t = false ∧ '\r' ∉ t ∧
      ¬ ['/', '*'] <:+: t ∧ ¬ ['\\', '\n'] <:+: t ∧
      read? (Buffer.ofText (marker "img".toList ++ (t ++ [')']))) ⟨0, 0⟩ "img".toList = some
        { name := "img".toList
          start := ⟨0, 0⟩
          stop := ⟨0, 7⟩
          text := "+img(a)".toList
          arguments := "a".toList
          argumentsOffset := 5 } := by
  have hargs : arguments? "a) //".toList = some [.other ⟨0, 1⟩] := by cbv
  have hcloses : closesBehind "a) //".toList = false := by cbv
  have hread : read? (Buffer.ofText "+img(a) //)".toList) ⟨0, 0⟩ "img".toList =
      some ⟨"img".toList, ⟨0, 0⟩, ⟨0, 7⟩, "+img(a)".toList, "a".toList, 5⟩ := by cbv
  intro t
  exact ⟨congrArg Option.isSome hargs, hcloses, by simp [t],
    fun h => absurd (h.subset (by simp : '*' ∈ ['/', '*'])) (by simp [t]),
    fun h => absurd (h.subset (by simp : '\n' ∈ ['\\', '\n'])) (by simp [t]), hread⟩

end MixinCall
end PugSize
