import Mathlib
import PugSize.Proofs.Edit.Slots

/-!
Positional arguments before and after a size is written into them. A text is its arguments woven into
the gaps between them: writing keeps every gap and every argument but the two slots, and what is
missing is added behind the last argument.
-/

namespace PugSize

open Script

namespace Text

/-- Texts with a gap before each of them and one behind the last. -/
def weave : List Text → List Text → Text
  | gap :: gaps, t :: ts => gap ++ t ++ weave gaps ts
  | gaps, _ => gaps.flatten

/-- Where the texts stand that are woven into gaps, the first of which begins at an offset. -/
def weaveSpans (offset : Nat) : List Text → List Text → List Span
  | gap :: gaps, t :: ts =>
    ⟨offset + gap.width, offset + gap.width + t.width⟩ ::
      weaveSpans (offset + gap.width + t.width) gaps ts
  | _, _ => []

/-- The texts are what the spans cover. -/
theorem slice_weaveSpans (front : Text) (gaps texts : List Text) (h : texts.length ≤ gaps.length) :
    (weaveSpans front.width gaps texts).map (front ++ weave gaps texts).slice = texts := by
  induction texts generalizing front gaps with
  | nil => cases gaps <;> rfl
  | cons t ts ih =>
      cases gaps with
      | nil => cases h
      | cons gap gaps =>
          have hlater := ih (front ++ gap ++ t) gaps (Nat.le_of_succ_le_succ h)
          have hfirst : (front ++ (gap ++ t ++ weave gaps ts)).slice
              ⟨front.width + gap.width, front.width + gap.width + t.width⟩ = t := by
            have := slice_middle (front ++ gap) t (weave gaps ts)
            simpa using this
          rw [width_append, width_append] at hlater
          rw [weaveSpans, List.map_cons, weave, hfirst, ← List.append_assoc, ← List.append_assoc,
            hlater]

end Text

theorem Script.Spelling.str_head {t : Text} (h : Spelling (.token .str) t) :
    ∃ quote, (quote = '"' ∨ quote = '\'') ∧ t.head? = some quote := by
  generalize hstr : TokenKind.str = kind at h
  cases h with
  | quoted hquote hbody =>
      subst hstr
      obtain ⟨hquote, -⟩ | ⟨-, hkind⟩ := quoteKind?_eq_some hquote
      · exact ⟨_, hquote, rfl⟩
      · cases hkind
  | mark hmark =>
      subst hstr
      have hmem := markKind?_eq_some hmark
      simp at hmem
  | slash => cases hstr
  | word hword hne hneutral =>
      subst hstr
      simp at hword

theorem Script.Row.width_eq (r : Row) :
    r.width = widthOf r.lead + widthOf r.core + widthOf r.trail := by
  rw [Row.width, Row.nodes, widthOf_append, widthOf_append]

namespace Slots

/-- The text of the core of a row. -/
def coreText (r : Row) : Text := textOf r.core

/-- What stands between the cores of rows, from the trail of the row before them on. -/
def gapsBehind (rest : List (List Node)) (tail : Text) (trail : List Node) : List Row → List Text
  | [] => [textOf (trail ++ rowsBehind [] rest) ++ tail]
  | r :: rows => textOf (trail ++ .comma :: r.lead) :: gapsBehind rest tail r.trail rows

/-- What stands before, between and behind the cores of rows. -/
def rowGaps (rest : List (List Node)) (tail : Text) (file : Row) (rows : List Row) : List Text :=
  textOf file.lead :: gapsBehind rest tail file.trail rows

section Gaps

variable (rest : List (List Node)) (tail : Text)

theorem length_gapsBehind (trail : List Node) (rows : List Row) :
    (gapsBehind rest tail trail rows).length = rows.length + 1 := by
  induction rows generalizing trail with
  | nil => rfl
  | cons r rows ih => rw [gapsBehind, List.length_cons, ih, List.length_cons]

theorem weave_gapsBehind (trail : List Node) (rows : List Row) :
    Text.weave (gapsBehind rest tail trail rows) (rows.map coreText) =
      textOf (trail ++ rowsBehind rows rest) ++ tail := by
  induction rows generalizing trail with
  | nil => simp [gapsBehind, Text.weave]
  | cons r rows ih =>
      rw [gapsBehind, List.map_cons, Text.weave, ih]
      simp [rowsBehind, coreText, Row.nodes]

theorem weaveSpans_gapsBehind (offset : Nat) (trail : List Node) (rows : List Row) :
    Text.weaveSpans offset (gapsBehind rest tail trail rows) (rows.map coreText) =
      rowSpans (offset + widthOf trail + 1) rows := by
  induction rows generalizing offset trail with
  | nil => rfl
  | cons r rows ih =>
      have hgap : Text.width (textOf (trail ++ .comma :: r.lead)) =
          widthOf trail + (1 + widthOf r.lead) := by
        rw [← widthOf_comma, ← widthOf_cons, ← widthOf_append, widthOf]
      have hcore : (coreText r).width = widthOf r.core := rfl
      rw [gapsBehind, List.map_cons, Text.weaveSpans, ih, rowSpans, Row.span, hgap, hcore, r.width_eq]
      simp only [List.cons.injEq, Span.mk.injEq]
      refine ⟨⟨by omega, by omega⟩, ?_⟩
      congr 1
      omega

theorem weave_rowGaps (file : Row) (rows : List Row) :
    Text.weave (rowGaps rest tail file rows) ((file :: rows).map coreText) =
      textOf (rowNodes (file :: rows) rest) ++ tail := by
  rw [rowGaps, List.map_cons, Text.weave, weave_gapsBehind, rowNodes_cons]
  simp [coreText]

theorem weaveSpans_rowGaps (file : Row) (rows : List Row) :
    Text.weaveSpans 0 (rowGaps rest tail file rows) ((file :: rows).map coreText) =
      rowSpans 0 (file :: rows) := by
  rw [rowGaps, List.map_cons, Text.weaveSpans, weaveSpans_gapsBehind, rowSpans, Row.span, file.width_eq]
  simp only [List.cons.injEq, Span.mk.injEq, Nat.zero_add]
  exact ⟨⟨rfl, rfl⟩, rfl⟩

end Gaps

/-- Whether a slot holds a value that is not to be overwritten. -/
def Keeps (overwrite : Bool) (slot : Option Text) : Prop :=
  overwrite = false ∧ ∃ old, slot = some old ∧ isVacant old = false

section Rows

variable (size : Size) (overwrite : Bool)

/-- Rows that are filled keep the gaps; behind the last row, what is missing is added. -/
theorem rowGaps_fillRows (rest : List (List Node)) (tail : Text) (file : Row) (rows : List Row) :
    ∃ file' rows', fillRows size overwrite (file :: rows) = file' :: rows' ∧
      rowGaps rest tail file' rows' =
        (rowGaps rest tail file rows).take (rows.length + 1) ++
          List.replicate (4 - (rows.length + 1)) ", ".toList ++
          (rowGaps rest tail file rows).drop (rows.length + 1) := by
  match rows with
  | [] => exact ⟨_, _, rfl, rfl⟩
  | [alt] => exact ⟨_, _, rfl, rfl⟩
  | [alt, w] =>
      refine ⟨_, _, rfl, ?_⟩
      simp only [rowGaps, gapsBehind, Row.withTrail_lead, Row.withTrail_trail, fillRow_lead]
      rfl
  | alt :: w :: h :: more =>
      refine ⟨_, _, rfl, ?_⟩
      have hnone : 4 - ((alt :: w :: h :: more).length + 1) = 0 := by simp
      rw [hnone, List.replicate_zero, List.append_nil, List.take_append_drop]
      simp only [rowGaps, gapsBehind, fillRow_lead, fillRow_trail]

theorem length_fillRows (file : Row) (rows : List Row) :
    (fillRows size overwrite (file :: rows)).length = max (rows.length + 1) 4 := by
  match rows with
  | [] => rfl
  | [alt] => rfl
  | [alt, w] => rfl
  | alt :: w :: h :: more =>
      simp only [fillRows, List.length_cons]
      omega

/-- Every argument but the two slots is kept. -/
theorem fillRows_other {rows : List Row} {i : Nat} (hwidth : i ≠ 2) (hheight : i ≠ 3)
    (hi : i < rows.length) :
    ((fillRows size overwrite rows).map coreText)[i]? = (rows.map coreText)[i]? := by
  match rows, i with
  | [file], 0 => rfl
  | [file, alt], 0 => rfl
  | [file, alt], 1 => rfl
  | [file, alt, w], 0 => rfl
  | [file, alt, w], 1 => rfl
  | [file, alt, w], 2 => exact absurd rfl hwidth
  | file :: alt :: w :: h :: more, 0 => rfl
  | file :: alt :: w :: h :: more, 1 => rfl
  | file :: alt :: w :: h :: more, 2 => exact absurd rfl hwidth
  | file :: alt :: w :: h :: more, 3 => exact absurd rfl hheight
  | file :: alt :: w :: h :: more, i + 4 => rfl

theorem fillRow_keeps (value : Text) {r : Row} (h : Keeps overwrite (some (coreText r))) :
    fillRow overwrite value r = r := by
  obtain ⟨rfl, old, hold, hvacant⟩ := h
  cases hold
  rw [fillRow, Bool.false_or, if_neg]
  rw [coreText] at hvacant
  simp [hvacant]

theorem fillRow_fills {value : Text} {r : Row} (h : ¬ Keeps overwrite (some (coreText r))) :
    (fillRow overwrite value r).core = [.number value] := by
  have hfill : (overwrite || isVacant (textOf r.core)) = true := by
    by_contra hnot
    simp only [Bool.or_eq_true, not_or, Bool.not_eq_true] at hnot
    exact h ⟨hnot.1, _, rfl, hnot.2⟩
  rw [fillRow, if_pos hfill]
  rfl

/-- A slot keeps its value, or it is a row with the new one. -/
theorem fillRows_slot (file : Row) (rows : List Row) {i : Nat} {value : Text}
    (h : (i, value) ∈ [(2, decimal size.width), (3, decimal size.height)]) :
    let rows' := fillRows size overwrite (file :: rows)
    (Keeps overwrite ((file :: rows).map coreText)[i]? →
      (rows'.map coreText)[i]? = ((file :: rows).map coreText)[i]?) ∧
    (¬ Keeps overwrite ((file :: rows).map coreText)[i]? →
      ∃ r, rows'[i]? = some r ∧ r.core = [.number value]) := by
  have hmissing : ¬ Keeps overwrite none := fun h => by
    obtain ⟨-, old, hold, -⟩ := h
    cases hold
  simp only [List.mem_cons, Prod.mk.injEq, List.not_mem_nil, or_false] at h
  match rows with
  | [] =>
      obtain ⟨rfl, rfl⟩ | ⟨rfl, rfl⟩ := h
      · exact ⟨fun h => absurd h hmissing, fun _ => ⟨_, rfl, rfl⟩⟩
      · exact ⟨fun h => absurd h hmissing, fun _ => ⟨_, rfl, rfl⟩⟩
  | [alt] =>
      obtain ⟨rfl, rfl⟩ | ⟨rfl, rfl⟩ := h
      · exact ⟨fun h => absurd h hmissing, fun _ => ⟨_, rfl, rfl⟩⟩
      · exact ⟨fun h => absurd h hmissing, fun _ => ⟨_, rfl, rfl⟩⟩
  | [alt, w] =>
      obtain ⟨rfl, rfl⟩ | ⟨rfl, rfl⟩ := h
      · refine ⟨fun h => ?_, fun h => ⟨_, rfl, fillRow_fills overwrite h⟩⟩
        have hkeeps := fillRow_keeps overwrite (decimal size.width) h
        simp only [fillRows, hkeeps]
        rfl
      · exact ⟨fun h => absurd h hmissing, fun _ => ⟨_, rfl, rfl⟩⟩
  | alt :: w :: hh :: more =>
      obtain ⟨rfl, rfl⟩ | ⟨rfl, rfl⟩ := h
      · refine ⟨fun h => ?_, fun h => ⟨_, rfl, fillRow_fills overwrite h⟩⟩
        have hkeeps := fillRow_keeps overwrite (decimal size.width) h
        simp only [fillRows, hkeeps]
        rfl
      · refine ⟨fun h => ?_, fun h => ⟨_, rfl, fillRow_fills overwrite h⟩⟩
        have hkeeps := fillRow_keeps overwrite (decimal size.height) h
        simp only [fillRows, hkeeps]
        rfl

end Rows

end Slots

namespace Script

theorem readRows_getElem? {α : Type} {read : List Tree → Option α} {offset : Nat} {rows : List Row}
    {found : List α} (h : readRows read offset rows = some found) {i : Nat} {r : Row}
    (hr : rows[i]? = some r) : ∃ offset' a, read (r.trees offset') = some a ∧ found[i]? = some a := by
  induction rows generalizing offset found i with
  | nil => cases hr
  | cons s rows ih =>
      obtain ⟨a, ha, hlater⟩ := Option.bind_eq_some_iff.1 h
      obtain ⟨as, has, rfl⟩ := Option.map_eq_some_iff.1 hlater
      cases i with
      | zero =>
          cases hr
          exact ⟨offset, a, ha, rfl⟩
      | succ i => exact ih has hr

theorem segmentExpr?_number {r : Row} {value : Text} (h : r.core = [.number value]) (offset : Nat) :
    ∃ span, segmentExpr? false (r.trees offset) = some (.number span) := by
  rw [Row.trees, h]
  exact ⟨_, rfl⟩

theorem arguments?_of_read {t : Text} {found : PositionalArguments}
    (h : PositionalArguments.read t = .ok found) :
    ∃ args, arguments? t = some args ∧ found.spans = args.map Expr.span := by
  unfold PositionalArguments.read readArguments at h
  split at h
  · rename_i args hargs
    cases args with
    | nil => cases h
    | cons first args =>
        simp only [bind, Except.bind] at h
        split at h
        · cases h
          exact ⟨_, hargs, rfl⟩
        · cases h
  · cases h

end Script

namespace Slots

/-- A row that is read as a string begins with its quote. -/
theorem exists_quote {r : Row} {offset : Nat} {e : Expr} {value : Text}
    (hspelled : Spelled (lexemesOf r.core)) (h : segmentExpr? false (r.trees offset) = some e)
    (hvalue : e.str? = some value) :
    ∃ quote, (quote = '"' ∨ quote = '\'') ∧ (coreText r).head? = some quote := by
  obtain ⟨n, hn, htrivia⟩ := r.solid.first
  obtain ⟨ns, hcore⟩ := List.head?_eq_some_iff.1 hn
  have hcomma := r.solid.uncut n (by rw [hcore]; exact List.mem_cons_self)
  rw [Row.trees, hcore, placeRow] at h
  cases n with
  | leaf l plain =>
      cases hkind : l.kind with
      | trivia kind => simp [Node.isTrivia, hkind] at htrivia
      | token kind =>
          have hstr : kind = .str := by
            rw [Node.tree?, hkind, Option.toList_some, List.singleton_append, segmentExpr?,
              if_neg (by simp), Option.some.injEq, Expr.ofLeaf, Expr.ofToken] at h
            split at h
            · split at h
              · assumption
              · subst h; cases hvalue
              · split at h <;> (subst h; cases hvalue)
              · subst h; cases hvalue
            · subst h; cases hvalue
          subst hstr
          have hspelling := hspelled l (by rw [hcore]; simp [Node.lexemes]) _ hkind
          obtain ⟨quote, hquote, hhead⟩ := hspelling.str_head
          refine ⟨quote, hquote, ?_⟩
          obtain ⟨body, hbody⟩ := List.head?_eq_some_iff.1 hhead
          rw [coreText, hcore, textOf_cons, textOf_leaf, hbody]
          rfl
  | comma => cases hcomma
  | group shape inside =>
      rw [Node.tree?, Option.toList_some, List.singleton_append, segmentExpr?] at h
      obtain ⟨e', he', hgroup⟩ := Option.map_eq_some_iff.1 h
      split at hgroup
      · subst hgroup
        cases shape with
        | round =>
            cases he'
            cases hvalue
        | square =>
            obtain ⟨es, -, rfl⟩ := Option.map_eq_some_iff.1 he'
            cases hvalue
        | curly =>
            obtain ⟨ps, -, rfl⟩ := Option.map_eq_some_iff.1 he'
            cases hvalue
      · subst hgroup
        cases hvalue

theorem segmentExpr?_emptyRow (quote : Char) (offset : Nat) :
    ∃ span, segmentExpr? false ((emptyRow quote).trees offset) = some (.str [] span) := by
  have hvalue : Quoted.value [quote, quote] = [] := by
    simp [Quoted.value, Quoted.decode]
  have hread : segmentExpr? false ((emptyRow quote).trees offset) =
      some (.str (Quoted.value [quote, quote])
        ⟨offset + 1, offset + 1 + Text.width [quote, quote]⟩) := rfl
  rw [hvalue] at hread
  exact ⟨_, hread⟩

end Slots

/-- An argument list told by the texts of its arguments and by the gaps around them. -/
structure Woven (t : Text) (gaps texts : List Text) (args : List Expr) : Prop where
  length_gaps : gaps.length = args.length + 1
  text : t = Text.weave gaps texts
  arguments : arguments? t = some args
  spans : args.map Expr.span = Text.weaveSpans 0 gaps texts
  slices : args.map (fun a => t.slice a.span) = texts

namespace Slots

theorem woven_rows {t : Text} {file : Row} {rows : List Row} {rest : List (List Node)} {tail : Text}
    {args : List Expr} (hlayout : Layout t (file :: rows) rest (tail ++ [')']))
    (hrows : readRows (segmentExpr? false) 0 (file :: rows) = some args) :
    Woven t (rowGaps rest tail file rows) ((file :: rows).map coreText) args := by
  have htext : t = Text.weave (rowGaps rest tail file rows) ((file :: rows).map coreText) := by
    rw [weave_rowGaps]
    have := hlayout.text
    rw [← List.append_assoc] at this
    exact List.append_cancel_right this
  have hspans : args.map Expr.span =
      Text.weaveSpans 0 (rowGaps rest tail file rows) ((file :: rows).map coreText) := by
    rw [weaveSpans_rowGaps]
    exact readRows_spans (fun _ _ _ => segmentExpr?_span) hrows
  have hlength := length_readRows hrows
  refine ⟨?_, htext, arguments?_eq_some.2 ⟨_, rest, _, hlayout, hrows⟩, hspans, ?_⟩
  · rw [rowGaps, List.length_cons, length_gapsBehind, hlength, List.length_cons]
  · have hslices := Text.slice_weaveSpans [] (rowGaps rest tail file rows)
      ((file :: rows).map coreText) (by simp [rowGaps, length_gapsBehind])
    have hmap : args.map (fun a => t.slice a.span) = (args.map Expr.span).map t.slice := by
      rw [List.map_map]
      rfl
    rw [hmap, hspans]
    conv => lhs; rw [htext]
    exact hslices

/-- What writing a size makes of the texts of arguments. There are four arguments at least. A slot has
the new number unless it keeps its value, all other arguments stay, and a file that stood alone is
followed by an empty string in its own quotes. -/
structure Filled (size : Size) (overwrite : Bool) (texts texts' : List Text) (args' : List Expr) :
    Prop where
  length : args'.length = max texts.length 4
  kept : ∀ i, i = 2 ∨ i = 3 → Keeps overwrite texts[i]? → texts'[i]? = texts[i]?
  written : ∀ i value, (i, value) ∈ [(2, decimal size.width), (3, decimal size.height)] →
    ¬ Keeps overwrite texts[i]? → texts'[i]? = some value ∧ ∃ span, args'[i]? = some (.number span)
  others : ∀ i, i ≠ 2 → i ≠ 3 → i < texts.length → texts'[i]? = texts[i]?
  alone : texts.length = 1 → ∃ quote file span, texts[0]? = some (quote :: file) ∧
    texts'[1]? = some [quote, quote] ∧ args'[1]? = some (.str [] span)

theorem filled_rows {size : Size} {overwrite : Bool} {file : Row} {rows : List Row} {e : Expr}
    {path : Text} {args' : List Expr} (hspelled : Spelled (lexemesOf file.core))
    (he : segmentExpr? false (file.trees 0) = some e) (hpath : e.str? = some path)
    (hargs' : readRows (segmentExpr? false) 0 (fillRows size overwrite (file :: rows)) = some args') :
    Filled size overwrite ((file :: rows).map coreText)
      ((fillRows size overwrite (file :: rows)).map coreText) args' where
  length := by
    rw [length_readRows hargs', length_fillRows, List.length_map, List.length_cons]
  kept i hi hkeeps := by
    obtain rfl | rfl := hi
    · have hslot : (2, decimal size.width) ∈ [(2, decimal size.width), (3, decimal size.height)] :=
        List.mem_cons_self
      exact (fillRows_slot size overwrite file rows hslot).1 hkeeps
    · have hslot : (3, decimal size.height) ∈ [(2, decimal size.width), (3, decimal size.height)] :=
        List.mem_cons_of_mem _ List.mem_cons_self
      exact (fillRows_slot size overwrite file rows hslot).1 hkeeps
  written i value hi hnot := by
    obtain ⟨r, hr, hcore⟩ := (fillRows_slot size overwrite file rows hi).2 hnot
    obtain ⟨offset, a, ha, hfound⟩ := readRows_getElem? hargs' hr
    obtain ⟨span, hspan⟩ := segmentExpr?_number hcore offset
    rw [hspan, Option.some.injEq] at ha
    subst ha
    refine ⟨?_, span, hfound⟩
    rw [List.getElem?_map, hr, Option.map_some, coreText, hcore, textOf_number]
  others i hwidth hheight hi := by
    rw [List.length_map] at hi
    exact fillRows_other size overwrite hwidth hheight hi
  alone hone := by
    rw [List.length_map, List.length_cons] at hone
    obtain rfl : rows = [] := List.length_eq_zero_iff.1 (by omega)
    obtain ⟨quote, hquote, hhead⟩ := exists_quote hspelled he hpath
    have hempty : quoteOfRow file = quote := by
      rw [quoteOfRow, ← coreText, hhead]
      obtain rfl | rfl := hquote <;> rfl
    obtain ⟨offset, a, ha, hfound⟩ := readRows_getElem? hargs' (i := 1) rfl
    obtain ⟨span, hspan⟩ := segmentExpr?_emptyRow (quoteOfRow file) offset
    rw [hspan, Option.some.injEq] at ha
    subst ha
    obtain ⟨body, hbody⟩ := List.head?_eq_some_iff.1 hhead
    refine ⟨quote, body, span, ?_, ?_, hfound⟩
    · rw [List.map_cons, hbody]
      rfl
    · rw [← hempty]
      exact congrArg some (textOf_leaf _ _)

/-- A size written into the arguments of a call by position, whatever stands in them. The text before
and the text behind are arguments woven into the same gaps, but for those of arguments that were
missing; the file is read as before, and writing again without overwriting changes nothing. -/
theorem write_weaves {t : Text} {found : PositionalArguments}
    (h : PositionalArguments.read t = .ok found) (size : Size) (overwrite : Bool) :
    ∃ gaps texts args texts' args', Woven t gaps texts args ∧ found.spans = args.map Expr.span ∧
      let t' := write t found.spans size overwrite
      let added := List.replicate (4 - args.length) ", ".toList
      Woven t' (gaps.take args.length ++ added ++ gaps.drop args.length) texts' args' ∧
      PositionalArguments.read t' = .ok ⟨found.file, args'.map Expr.span⟩ ∧
      Filled size overwrite texts texts' args' ∧
      ∀ again, write t' (args'.map Expr.span) again false = t' := by
  obtain ⟨file, rows, rest, after, e, hlayout, hreads, he, hpath, hspans⟩ :=
    PositionalArguments.read_eq_ok.1 h
  obtain ⟨tail, -, rfl⟩ := hlayout.exists_tail
  obtain ⟨args, hargs⟩ := (readRows_isSome (isSome_segmentExpr?_shift false) 0 _).2 hreads
  have hlength := length_readRows hargs
  rw [List.length_cons] at hlength
  have hreads' := @reads_fillRows size overwrite _ hreads
  obtain ⟨args', hargs'⟩ := (readRows_isSome (isSome_segmentExpr?_shift false) 0 _).2 hreads'
  obtain ⟨spans, hread', -, hagain⟩ := write_again h size overwrite
  obtain ⟨file', rows', hcons, hgaps⟩ := rowGaps_fillRows size overwrite rest tail file rows
  have hwoven' : Woven (write t found.spans size overwrite) (rowGaps rest tail file' rows')
      ((file' :: rows').map coreText) args' := by
    rw [hcons] at hargs'
    refine woven_rows ?_ hargs'
    rw [hspans, ← hcons]
    exact layout_fillRows hlayout
  obtain ⟨args'', hargs'', hspans''⟩ := arguments?_of_read hread'
  rw [hwoven'.arguments, Option.some.injEq] at hargs''
  subst hargs''
  simp only at hspans''
  subst hspans''
  rw [hgaps, ← hlength, ← hcons] at hwoven'
  have hspelled : Spelled (lexemesOf file.core) := fun l hl =>
    hlayout.legible.spelled l (by simp [rowNodes, commas, Row.nodes, hl])
  refine ⟨_, _, args, _, args', woven_rows hlayout hargs, ?_, hwoven', hread',
    filled_rows hspelled he hpath hargs', hagain⟩
  rw [hspans]
  exact (readRows_spans (fun _ _ _ => segmentExpr?_span) hargs).symm

theorem write_weaves_comment :
    let t := "'a.png', f(1, [2]), null /* w, */,".toList
    let t' := "'a.png', f(1, [2]), 30, 40 /* w, */,".toList
    let found : PositionalArguments := ⟨"a.png".toList, [⟨0, 7⟩, ⟨9, 18⟩, ⟨20, 24⟩]⟩
    PositionalArguments.read t = .ok found ∧ write t found.spans ⟨30, 40⟩ false = t' ∧
    ∃ gaps texts args texts' args', Woven t gaps texts args ∧ found.spans = args.map Expr.span ∧
      let added := List.replicate (4 - args.length) ", ".toList
      Woven t' (gaps.take args.length ++ added ++ gaps.drop args.length) texts' args' ∧
      PositionalArguments.read t' = .ok ⟨found.file, args'.map Expr.span⟩ ∧
      Filled ⟨30, 40⟩ false texts texts' args' ∧
      ∀ again, write t' (args'.map Expr.span) again false = t' := by
  have hread : PositionalArguments.read "'a.png', f(1, [2]), null /* w, */,".toList =
      .ok ⟨"a.png".toList, [⟨0, 7⟩, ⟨9, 18⟩, ⟨20, 24⟩]⟩ := by cbv
  have hwrite : write "'a.png', f(1, [2]), null /* w, */,".toList [⟨0, 7⟩, ⟨9, 18⟩, ⟨20, 24⟩]
      ⟨30, 40⟩ false = "'a.png', f(1, [2]), 30, 40 /* w, */,".toList := by cbv
  have hweaves := write_weaves hread ⟨30, 40⟩ false
  rw [hwrite] at hweaves
  exact ⟨hread, hwrite, hweaves⟩

end Slots
end PugSize
