import Mathlib
import PugSize.Proofs.Script.Bracketed
import PugSize.Proofs.Script.PropertyValue

/-!
Expressions cut out of their text. An argument, an element of an array or a value behind a colon stands
on a stretch of the text that is its own: the stretches of neighbours do not overlap, and the text cut
to one of them is read as that expression alone.
-/

namespace PugSize

namespace Span

/-- Whether a stretch lies in another. -/
def Inside (s outer : Span) : Prop := outer.start ≤ s.start ∧ s.stop ≤ outer.stop

theorem Inside.trans {a b c : Span} (h : a.Inside b) (h' : b.Inside c) : a.Inside c :=
  ⟨Nat.le_trans h'.1 h.1, Nat.le_trans h.2 h'.2⟩

/-- Whether stretches lie one behind the other. -/
def InOrder (spans : List Span) : Prop := spans.Pairwise fun a b => a.stop ≤ b.start

end Span

namespace Script

/-- Whether the last token before the value of a property is a colon. What stands there in an object
that is read has tokens; were it not so, the value would be taken to stand behind a colon. -/
def Property.hasColon (t : Text) (p : Property Expr) : Bool :=
  match tokenize (t.slice ⟨p.span.start, p.value.span.start⟩) with
  | .ok ts => ts.getLast?.map Token.kind == some .colon
  | .error _ => true

/-- What an expression is made of: the elements of an array, and the values that stand behind a colon
in an object. -/
def Expr.parts (t : Text) : Expr → List Expr
  | .array elements _ => elements
  | .object props _ => (props.filter (Property.hasColon t)).map Property.value
  | _ => []

/-- The arguments of a text and what they are made of, at any depth. -/
inductive Within (t : Text) (args : List Expr) : Expr → Prop
  | argument {e : Expr} (h : e ∈ args) : Within t args e
  | part {outer e : Expr} (h : Within t args outer) (hpart : e ∈ outer.parts t) : Within t args e

/-- Whether an expression stands on whole characters of a text, and the text cut to its span is read as
that expression alone. -/
structure Exact (t : Text) (e : Expr) : Prop where
  filled : e.span.start < e.span.stop
  whole : ∃ front back, t = front ++ t.slice e.span ++ back ∧
    e.span = ⟨front.width, front.width + (t.slice e.span).width⟩
  alone : ∃ e', arguments? (t.slice e.span) = some [e'] ∧ e'.shift e.span.start = e

section

variable {α : Type} {read : List Tree → Option α}

/-- What is read from the rows among segments the first of which stands at an offset. -/
inductive Reads (read : List Tree → Option α) : Nat → List (List Node) → List α → Prop
  | nil (offset : Nat) : Reads read offset [] []
  | blank {offset : Nat} {seg : List Node} {segs : List (List Node)} {found : List α}
      (hblank : Blank seg) (later : Reads read (offset + widthOf seg + 1) segs found) :
      Reads read offset (seg :: segs) found
  | row {offset : Nat} (r : Row) {segs : List (List Node)} {a : α} {found : List α}
      (ha : read (r.trees offset) = some a) (later : Reads read (offset + r.width + 1) segs found) :
      Reads read offset (r.nodes :: segs) (a :: found)

theorem rowsOf?_reads {segs : List (List Node)} (huncut : ∀ seg ∈ segs, Uncut seg) {offset : Nat}
    {found : List α} (h : rowsOf? read (placeAll offset segs) = some found) :
    Reads read offset segs found := by
  obtain ⟨rows, rest, rfl, hrest, hrows⟩ := (rowsOf?_eq_some huncut).1 h
  clear h huncut
  induction rows generalizing offset found with
  | nil =>
      cases hrows
      obtain rfl | ⟨blank, rfl, hblank⟩ := hrest
      · exact .nil offset
      · exact .blank hblank (.nil _)
  | cons r rows ih =>
      obtain ⟨a, ha, hlater⟩ := Option.bind_eq_some_iff.1 hrows
      obtain ⟨as, has, rfl⟩ := Option.map_eq_some_iff.1 hlater
      exact .row r ha (ih has)

theorem elements?_reads {segs : List (List Node)} (huncut : ∀ seg ∈ segs, Uncut seg) {offset : Nat}
    {found : List Expr} (h : elements? (placeAll offset segs) = some found) :
    Reads (segmentExpr? true) offset segs found := by
  induction segs generalizing offset found with
  | nil =>
      cases h
      exact .nil offset
  | cons seg segs ih =>
      have hlater := fun s hs => huncut s (List.mem_cons_of_mem seg hs)
      obtain hblank | ⟨r, rfl⟩ := exists_row (huncut seg List.mem_cons_self)
      · rw [placeAll, placeRow_blank hblank, elements?] at h
        exact .blank hblank (ih hlater h)
      · obtain ⟨t, rest, htrees, -⟩ := r.trees_eq offset
        rw [placeAll, r.placeRow_nodes, htrees, elements?, ← htrees] at h
        obtain ⟨a, ha, h⟩ := Option.bind_eq_some_iff.1 h
        obtain ⟨as, has, rfl⟩ := Option.map_eq_some_iff.1 h
        exact .row r ha (ih hlater has)

theorem Reads.ne_nil {offset : Nat} {segs : List (List Node)} {found : List α}
    (h : Reads read offset segs found) (hfound : found ≠ []) : segs ≠ [] := by
  rintro rfl
  cases h
  exact hfound rfl

/-- What is read is read from solid cores among the nodes. -/
theorem Reads.exists_core {offset : Nat} {segs : List (List Node)} {found : List α}
    (h : Reads read offset segs found) :
    ∀ a ∈ found, ∃ before core behind, commas segs = before ++ core ++ behind ∧ Solid core ∧
      read (placeRow (offset + widthOf before) core) = some a := by
  have hbehind {offset : Nat} {seg : List Node} {segs : List (List Node)} {a : α} (hne : segs ≠ [])
      (h : ∃ before core behind, commas segs = before ++ core ++ behind ∧ Solid core ∧
        read (placeRow (offset + widthOf seg + 1 + widthOf before) core) = some a) :
      ∃ before core behind, commas (seg :: segs) = before ++ core ++ behind ∧ Solid core ∧
        read (placeRow (offset + widthOf before) core) = some a := by
    obtain ⟨before, core, behind, hnodes, hsolid, hread⟩ := h
    refine ⟨seg ++ .comma :: before, core, behind, ?_, hsolid, ?_⟩
    · rw [commas_cons seg hne, hnodes]
      simp
    · rw [widthOf_append, widthOf_cons, widthOf_comma, ← Nat.add_assoc, ← Nat.add_assoc]
      exact hread
  induction h with
  | nil offset => exact nofun
  | blank hblank later ih =>
      exact fun a ha => hbehind (later.ne_nil (List.ne_nil_of_mem ha)) (ih a ha)
  | @row offset r segs a found hread later ih =>
      intro b hb
      obtain rfl | hb := List.mem_cons.1 hb
      · refine ⟨r.lead, r.core, r.trail ++ segs.flatMap (.comma :: ·), ?_, r.solid, hread⟩
        rw [commas, Row.nodes, List.append_assoc (r.lead ++ r.core)]
      · exact hbehind (later.ne_nil (List.ne_nil_of_mem hb)) (ih b hb)

/-- What is read stands one behind the other. -/
theorem Reads.inOrder {span : α → Span}
    (hspan : ∀ t rest a, read (t :: rest) = some a → span a = ⟨t.span.start, t.lastStop rest⟩)
    {offset : Nat} {segs : List (List Node)} {found : List α} (h : Reads read offset segs found) :
    Span.InOrder (found.map span) ∧ ∀ a ∈ found, offset ≤ (span a).start := by
  induction h with
  | nil offset => exact ⟨.nil, nofun⟩
  | blank hblank later ih =>
      refine ⟨ih.1, fun a ha => ?_⟩
      have := ih.2 a ha
      omega
  | @row offset r segs a found hread later ih =>
      obtain ⟨t, rest, htrees, hrow⟩ := r.trees_eq offset
      rw [htrees] at hread
      have ha : span a = r.span offset := (hspan t rest a hread).trans hrow
      have hstop : (span a).stop ≤ offset + r.width := by
        rw [ha, Row.span, Row.width, Row.nodes, widthOf_append, widthOf_append]
        dsimp only
        omega
      refine ⟨List.pairwise_cons.2 ⟨fun s hs => ?_, ih.1⟩, List.forall_mem_cons.2 ⟨?_, fun b hb => ?_⟩⟩
      · obtain ⟨b, hb, rfl⟩ := List.mem_map.1 hs
        have := ih.2 b hb
        omega
      · rw [ha, Row.span]
        exact Nat.le_add_right _ _
      · have := ih.2 b hb
        omega

end

/-- Whether something is read from a solid core that stands in a text, within a stretch of it. -/
def ReadFrom {α : Type} (read : List Tree → Option α) (t : Text) (outer : Span) (a : α) : Prop :=
  ∃ front core back after, t = front ++ textOf core ++ back ∧ Solid core ∧
    Legible (lexemesOf core) after ∧ read (placeRow front.width core) = some a ∧
    (⟨front.width, front.width + widthOf core⟩ : Span).Inside outer

theorem Reads.readFrom {α : Type} {read : List Tree → Option α} {t front back after : Text}
    {segs : List (List Node)} {found : List α} (h : Reads read front.width segs found)
    (ht : t = front ++ textOf (commas segs) ++ back)
    (hlegible : Legible (lexemesOf (commas segs)) after) :
    ∀ a ∈ found, ReadFrom read t ⟨front.width, front.width + widthOf (commas segs)⟩ a := by
  intro a ha
  obtain ⟨before, core, behind, hnodes, hsolid, hread⟩ := h.exists_core a ha
  rw [hnodes, List.append_assoc, lexemesOf_append, lexemesOf_append] at hlegible
  refine ⟨front ++ textOf before, core, textOf behind ++ back, _, ?_, hsolid,
    (legible_append.1 (legible_append.1 hlegible).2).1, ?_, ?_⟩
  · rw [ht, hnodes]
    simp only [textOf_append, List.append_assoc]
  · rwa [Text.width_append]
  · have hwidth : (front ++ textOf before).width = front.width + widthOf before := Text.width_append _ _
    simp only [Span.Inside, hnodes, widthOf_append, hwidth]
    omega

theorem Solid.segmentExpr?_span {core : List Node} (hcore : Solid core) {spreads : Bool} {offset : Nat}
    {e : Expr} (h : segmentExpr? spreads (placeRow offset core) = some e) :
    e.span = ⟨offset, offset + widthOf core⟩ := by
  obtain ⟨t, rest, htrees, hstart, hstop⟩ := hcore.placeRow_eq offset
  rw [htrees] at h
  rw [Script.segmentExpr?_span h, hstart, hstop]

theorem Solid.property?_span {core : List Node} (hcore : Solid core) {offset : Nat}
    {p : Property Expr} (h : property? (placeRow offset core) = some p) :
    p.span = ⟨offset, offset + widthOf core⟩ := by
  obtain ⟨t, rest, htrees, hstart, hstop⟩ := hcore.placeRow_eq offset
  rw [htrees] at h
  rw [Script.property?_span h, hstart, hstop]

/-- A leading spread makes no difference to what is read. -/
theorem segmentExpr?_spread {ts : List Tree} {e : Expr} (h : segmentExpr? true ts = some e) :
    segmentExpr? false ts = some e := by
  cases ts with
  | nil => cases h
  | cons t rest =>
      cases t with
      | group shape span segs => exact h
      | leaf t =>
          rw [segmentExpr?] at h ⊢
          rw [if_neg (by simp)]
          split at h
          · rename_i hspread
            obtain ⟨value, hvalue, rfl⟩ := Option.map_eq_some_iff.1 h
            cases rest with
            | nil => cases hvalue
            | cons u rest => rfl
          · exact h

/-- A row without white space and comments around its core. -/
def Row.ofCore (core : List Node) (h : Solid core) : Row := ⟨[], core, [], blank_nil, h, blank_nil⟩

/-- The nodes of a text that is read from a core stand alone as an argument list. -/
theorem ReadFrom.exact {t : Text} {outer : Span} {e : Expr}
    (h : ReadFrom (segmentExpr? false) t outer e) : Exact t e ∧ e.span.Inside outer := by
  obtain ⟨front, core, back, after, rfl, hcore, hlegible, hread, hinside⟩ := h
  have hspan := hcore.segmentExpr?_span hread
  have hslice : (front ++ textOf core ++ back).slice e.span = textOf core := by
    rw [hspan, widthOf]
    exact Text.slice_middle front (textOf core) back
  have hclosing : Legible (lexemesOf core) [')'] :=
    hlegible.swap_token (.cons (by decide)) (by decide) fun _ => hcore.last_token
  have hshift := placeRow_shift front.width 0 core
  rw [Nat.zero_add] at hshift
  rw [hshift, segmentExpr?_shift] at hread
  obtain ⟨e', he', rfl⟩ := Option.map_eq_some_iff.1 hread
  have halone : arguments? (textOf core) = some [e'] := by
    have hnodes : rowNodes [.ofCore core hcore] [] = core := by
      simp [rowNodes, commas, Row.nodes, Row.ofCore]
    refine arguments?_eq_some.2 ⟨[.ofCore core hcore], [], [')'],
      ⟨by rw [hnodes], .inl rfl, ?_, by rwa [hnodes]⟩, ?_⟩
    · exact ⟨[], List.forall_mem_nil _, rfl, trivial⟩
    · change (segmentExpr? false (placeRow (0 + 0) core)).bind _ = _
      rw [he']
      rfl
  refine ⟨⟨?_, ⟨front, back, ?_, ?_⟩, e', ?_, ?_⟩, by rwa [hspan]⟩
  · rw [hspan]
    have := Text.width_pos (textOf_ne_nil hlegible hcore.ne_nil)
    rw [← widthOf] at this
    dsimp only
    omega
  · rw [hslice]
  · rw [hslice, hspan, widthOf]
  · rw [hslice, halone]
  · rw [hspan]

theorem Property.hasColon_eq {front back after : Text} {core part value : List Node} {p : Property Expr}
    (hcore : core = part ++ value) (hlegible : Legible (lexemesOf core) after)
    (hp : p.span.start = front.width) (hvalue : p.value.span.start = front.width + widthOf part) :
    p.hasColon (front ++ textOf core ++ back) = (lastKind? part == some .colon) := by
  have hslice : (front ++ textOf core ++ back).slice ⟨p.span.start, p.value.span.start⟩ =
      textOf part := by
    have := Text.slice_middle front (textOf part) (textOf value ++ back)
    rw [hp, hvalue, hcore, textOf_append, widthOf]
    simpa only [List.append_assoc] using this
  rw [hcore, lexemesOf_append] at hlegible
  have htokens := tokenize_eq_ok.2 ⟨_, (legible_append.1 hlegible).1.alone, rfl, rfl⟩
  rw [Property.hasColon, hslice, textOf, htokens]
  rfl

section

variable {t : Text} {outer span : Span}

theorem ReadFrom.mono {α : Type} {read read' : List Tree → Option α} {outer' : Span} {a : α}
    (h : ReadFrom read t outer a) (hread : ∀ ts, read ts = some a → read' ts = some a)
    (houter : outer.Inside outer') : ReadFrom read' t outer' a := by
  obtain ⟨front, core, back, after, ht, hcore, hlegible, ha, hinside⟩ := h
  exact ⟨front, core, back, after, ht, hcore, hlegible, hread _ ha, hinside.trans houter⟩

/-- An array or an object is read from the segments between its brackets. -/
theorem ReadFrom.exists_segments {e : Expr} (h : ReadFrom (segmentExpr? false) t outer e)
    (he : e.isBracketed = true) :
    ∃ front segs back shape span, t = front ++ textOf (commas segs) ++ back ∧
      Legible (lexemesOf (commas segs)) (Bracket.closing shape).text ∧ (∀ seg ∈ segs, Uncut seg) ∧
      Tree.expr? (.group shape span (placeAll front.width segs)) = some e ∧
      (⟨front.width, front.width + widthOf (commas segs)⟩ : Span).Inside e.span := by
  obtain ⟨front, core, back, after, rfl, hcore, hlegible, hread, -⟩ := h
  have hspan := hcore.segmentExpr?_span hread
  have hrow : segmentExpr? false ((Row.ofCore core hcore).trees front.width) = some e := hread
  obtain ⟨shape, inside, hgroup, hexpr⟩ := core_of_bracketed hrow he
  obtain rfl : core = [.group shape inside] := hgroup
  obtain ⟨segs, hne, huncut, rfl⟩ := exists_commas inside
  rw [lexemesOf_cons, lexemesOf_nil, List.append_nil] at hlegible
  have hopening : (front ++ shape.opening.text).width = front.width + 1 := by
    rw [Text.width_append, Bracket.opening_width]
  refine ⟨front ++ shape.opening.text, segs, shape.closing.text ++ back, shape,
    ⟨front.width, front.width + (widthOf (commas segs) + 2)⟩, ?_, legible_group.1 hlegible, huncut, ?_, ?_⟩
  · rw [textOf_group]
    simp only [List.append_assoc]
  · rw [hopening, ← place_commas hne huncut]
    exact hexpr
  · rw [hspan, widthOf_group, hopening]
    simp only [Span.Inside]
    omega

/-- The elements of an array stand in it one behind the other, each to be read by itself. -/
theorem ReadFrom.elements {elements : List Expr}
    (h : ReadFrom (segmentExpr? false) t outer (.array elements span)) :
    Span.InOrder (elements.map Expr.span) ∧
      ∀ e ∈ elements, ReadFrom (segmentExpr? false) t span e := by
  obtain ⟨front, segs, back, shape, _, ht, hlegible, huncut, hexpr, hinside⟩ := h.exists_segments rfl
  obtain ⟨-, helements⟩ := expr?_array hexpr
  have hreads := elements?_reads huncut helements
  refine ⟨(hreads.inOrder fun _ _ _ => segmentExpr?_span).1, fun e he => ?_⟩
  exact (hreads.readFrom ht hlegible e he).mono (fun _ => segmentExpr?_spread) hinside

/-- The properties of an object stand in it one behind the other, each with its value in it. A value
behind a colon is to be read by itself. -/
theorem ReadFrom.props {props : List (Property Expr)}
    (h : ReadFrom (segmentExpr? false) t outer (.object props span)) :
    Span.InOrder (props.map Property.span) ∧ ∀ p ∈ props, p.span.Inside span ∧
      p.value.span.Inside p.span ∧
      (p.hasColon t = true → ReadFrom (segmentExpr? false) t p.span p.value) := by
  obtain ⟨front, segs, back, shape, _, ht, hlegible, huncut, hexpr, hinside⟩ := h.exists_segments rfl
  obtain ⟨-, -, hprops⟩ := expr?_object hexpr
  rw [properties?_eq] at hprops
  have hreads := rowsOf?_reads huncut hprops
  refine ⟨(hreads.inOrder fun _ _ _ => property?_span).1, fun p hp => ?_⟩
  obtain ⟨front, core, back, after, rfl, hcore, hlegible, hread, hwithin⟩ :=
    hreads.readFrom ht hlegible p hp
  have hspan := hcore.property?_span hread
  obtain ⟨part, value, rfl, hvalue, hvalueSpan, hcolon⟩ := hcore.exists_value hread
  have hpartWidth : (front ++ textOf part).width = front.width + widthOf part := Text.width_append _ _
  have hvalueInside : p.value.span.Inside p.span := by
    rw [hspan, hvalueSpan]
    exact ⟨Nat.le_add_right _ _, Nat.le_refl _⟩
  refine ⟨by rw [hspan]; exact hwithin.trans hinside, hvalueInside, fun hhas => ?_⟩
  rw [Property.hasColon_eq rfl hlegible (by rw [hspan]) (by rw [hvalueSpan]), beq_iff_eq] at hhas
  rw [lexemesOf_append] at hlegible
  refine ⟨front ++ textOf part, value, back, after, ?_, hvalue, (legible_append.1 hlegible).2, ?_, ?_⟩
  · simp only [textOf_append, List.append_assoc]
  · rw [hpartWidth]
    exact hcolon hhas
  · rw [hvalueSpan, widthOf_append, ← Nat.add_assoc] at hvalueInside
    rwa [hpartWidth]

/-- The parts of an expression stand in it one behind the other, each to be read by itself. -/
theorem ReadFrom.parts {e : Expr} (h : ReadFrom (segmentExpr? false) t outer e) :
    Span.InOrder ((e.parts t).map Expr.span) ∧
      ∀ part ∈ e.parts t, ReadFrom (segmentExpr? false) t e.span part := by
  cases e with
  | array elements span => exact h.elements
  | object props span =>
      obtain ⟨horder, hprops⟩ := h.props
      constructor
      · rw [Expr.parts, List.map_map, Span.InOrder, List.pairwise_map]
        rw [Span.InOrder, List.pairwise_map] at horder
        have hsub := horder.sublist (List.filter_sublist (p := Property.hasColon t))
        refine hsub.imp_of_mem fun hp hq hle => ?_
        obtain ⟨-, hpInside, -⟩ := hprops _ (List.mem_of_mem_filter hp)
        obtain ⟨-, hqInside, -⟩ := hprops _ (List.mem_of_mem_filter hq)
        exact Nat.le_trans hpInside.2 (Nat.le_trans hle hqInside.1)
      · intro part hpart
        obtain ⟨p, hp, rfl⟩ := List.mem_map.1 hpart
        obtain ⟨hp, hhas⟩ := List.mem_filter.1 hp
        obtain ⟨hpInside, -, hread⟩ := hprops p hp
        exact (hread hhas).mono (fun _ => id) hpInside
  | str value span => exact ⟨.nil, nofun⟩
  | number span => exact ⟨.nil, nofun⟩
  | keyword word span => exact ⟨.nil, nofun⟩
  | other span => exact ⟨.nil, nofun⟩

/-- The arguments of a text stand in it one behind the other, each to be read by itself. -/
theorem arguments?_readFrom {args : List Expr} (h : arguments? t = some args) :
    Span.InOrder (args.map Expr.span) ∧
      ∀ e ∈ args, ReadFrom (segmentExpr? false) t ⟨0, t.width⟩ e := by
  obtain ⟨rows, rest, after, hlayout, hrows⟩ := arguments?_eq_some.1 h
  obtain ⟨tail, ht, -⟩ := hlayout.exists_tail
  have hplace := rowsOf?_place.2 ⟨rows, rest, rfl, hlayout.tail, hrows⟩
  obtain ⟨segs, hne, huncut, hsegs⟩ := exists_commas (rowNodes rows rest)
  rw [← hsegs, place_commas hne huncut] at hplace
  have hreads : Reads (segmentExpr? false) (Text.width []) segs args := rowsOf?_reads huncut hplace
  refine ⟨(hreads.inOrder fun _ _ _ => segmentExpr?_span).1, fun e he => ?_⟩
  have hlegible := hlayout.legible
  rw [← hsegs] at ht hlegible
  refine (hreads.readFrom ht hlegible e he).mono (fun _ => id) ⟨Nat.le_refl _, ?_⟩
  rw [ht, Text.width_append, Text.width_nil, Nat.zero_add]
  exact Nat.le_add_right _ _

end

theorem Within.readFrom {t : Text} {args : List Expr} (h : arguments? t = some args) {e : Expr}
    (he : Within t args e) : ∃ outer, ReadFrom (segmentExpr? false) t outer e := by
  induction he with
  | argument he => exact ⟨_, (arguments?_readFrom h).2 _ he⟩
  | part _ hpart ih =>
      obtain ⟨outer, hfrom⟩ := ih
      exact ⟨_, hfrom.parts.2 _ hpart⟩

/-- Reading is compositional. An argument, an element or a value behind a colon, however deep, is read from
its span alone as the same expression. Arguments, elements, properties and values behind colons do not
overlap their neighbours, and they stand in what they are part of. -/
theorem arguments?_exact {t : Text} {args : List Expr} (h : arguments? t = some args) :
    Span.InOrder (args.map Expr.span) ∧ ∀ e, Within t args e →
      Exact t e ∧ e.span.Inside ⟨0, t.width⟩ ∧ Span.InOrder ((e.parts t).map Expr.span) ∧
      (∀ part ∈ e.parts t, part.span.Inside e.span) ∧
      ∀ props span, e = .object props span → Span.InOrder (props.map Property.span) ∧
        ∀ p ∈ props, p.span.Inside span ∧ p.value.span.Inside p.span := by
  refine ⟨(arguments?_readFrom h).1, fun e he => ?_⟩
  obtain ⟨outer, hfrom⟩ := he.readFrom h
  refine ⟨hfrom.exact.1, ?_, hfrom.parts.1, fun part hpart => (hfrom.parts.2 part hpart).exact.2, ?_⟩
  · obtain ⟨front, back, ht, hspan⟩ := hfrom.exact.1.whole
    have hwidth := congrArg Text.width ht
    rw [Text.width_append, Text.width_append] at hwidth
    rw [hspan]
    exact ⟨Nat.zero_le _, by dsimp only; omega⟩
  · rintro props span rfl
    exact ⟨hfrom.props.1, fun p hp => ⟨(hfrom.props.2 p hp).1, (hfrom.props.2 p hp).2.1⟩⟩

theorem arguments?_exact_nested :
    (arguments? "'é', [...f, \x7ba, [k /* : */] : // c\n[1,, g(\x7b\x7d)]\x7d]".toList).isSome = true ∧
      Exact "'é', [...f, \x7ba, [k /* : */] : // c\n[1,, g(\x7b\x7d)]\x7d]".toList
        (.array [.number ⟨37, 38⟩, .other ⟨41, 46⟩] ⟨36, 47⟩) ∧
      Span.InOrder [⟨37, 38⟩, ⟨41, 46⟩] := by
  have hargs : arguments? "'é', [...f, \x7ba, [k /* : */] : // c\n[1,, g(\x7b\x7d)]\x7d]".toList =
      some [.str ['é'] ⟨0, 4⟩, .array [.other ⟨7, 11⟩, .object [⟨some ['a'], ⟨14, 15⟩, .other ⟨14, 15⟩⟩,
        ⟨none, ⟨17, 47⟩, .array [.number ⟨37, 38⟩, .other ⟨41, 46⟩] ⟨36, 47⟩⟩] ⟨13, 48⟩] ⟨6, 49⟩] := by cbv
  have hcolon : Property.hasColon "'é', [...f, \x7ba, [k /* : */] : // c\n[1,, g(\x7b\x7d)]\x7d]".toList
      ⟨none, ⟨17, 47⟩, .array [.number ⟨37, 38⟩, .other ⟨41, 46⟩] ⟨36, 47⟩⟩ = true := by cbv
  obtain ⟨-, hwithin⟩ := arguments?_exact hargs
  obtain ⟨hexact, -, horder, -⟩ := hwithin _ (.part
    (.part (.argument (List.mem_cons_of_mem _ List.mem_cons_self))
      (List.mem_cons_of_mem _ List.mem_cons_self))
    (List.mem_map.2 ⟨_, List.mem_filter.2 ⟨List.mem_cons_of_mem _ List.mem_cons_self, hcolon⟩, rfl⟩))
  exact ⟨congrArg Option.isSome hargs, hexact, horder⟩

end Script

end PugSize
