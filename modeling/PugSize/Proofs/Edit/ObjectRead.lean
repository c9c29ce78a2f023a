import PugSize.Proofs.Edit.PlainObject
import PugSize.Proofs.Script.Bracketed
import PugSize.Proofs.Text.Boundary

/-!
What is read of an object that is laid out in rows: one property for each row, whose key and whose
value are told from the core of the row, and whose span is the stretch of the core.
-/

namespace PugSize

open Script CharClass

namespace ObjectText

theorem isSome_property?_rows (offset : Nat) (rows : List Row) :
    (∃ props, readRows property? offset rows = some props) ↔ ∀ r ∈ rows, r.Reads property? :=
  readRows_isSome (fun n ts => isSome_property?_shift n ts) offset rows

theorem widthOf_eq_zero {ns : List Node} {after : Text} (h : Legible (lexemesOf ns) after)
    (hzero : widthOf ns = 0) : ns = [] := by
  apply Classical.byContradiction
  intro hne
  exact absurd hzero (Nat.ne_of_gt (Text.width_pos (textOf_ne_nil h hne)))

/-- A text is one object if and only if it is laid out in rows that are read as its properties. -/
theorem arguments?_object {t : Text} {props : List (Property Expr)} :
    arguments? t = some [.object props ⟨0, t.width⟩] ↔
      ∃ rows rest, ObjectLayout t rows rest ∧ readRows property? 1 rows = some props := by
  constructor
  · intro h
    obtain ⟨lead, shape, inside, back, ht, hinside, hexpr, -⟩ := exists_first h rfl
    obtain ⟨rfl, hspan, hprops⟩ := expr?_object hexpr
    have hwidth := congrArg Text.width ht
    rw [Text.width_append, Text.width_append, ← widthOf, widthOf_group] at hwidth
    have hstart : 0 = lead.width := congrArg Span.start hspan
    have hstop : t.width = lead.width + (widthOf inside + 2) := congrArg Span.stop hspan
    obtain rfl := Text.eq_nil_of_width hstart.symm
    obtain rfl : back = [] := Text.eq_nil_of_width (by omega)
    rw [properties?_eq] at hprops
    obtain ⟨rows, rest, rfl, htail, hrows⟩ := rowsOf?_place.1 hprops
    refine ⟨rows, rest, ⟨?_, hinside, htail, (isSome_property?_rows 1 rows).1 ⟨props, hrows⟩⟩, hrows⟩
    rw [ht, List.nil_append, List.append_nil]
    exact textOf_group _ _
  · rintro ⟨rows, rest, hlayout, hrows⟩
    have hcore : Solid [Node.group .curly (rowNodes rows rest)] := solid_singleton rfl rfl
    have hread : readRows (segmentExpr? false) 0
        [⟨[], [.group .curly (rowNodes rows rest)], [], blank_nil, hcore, blank_nil⟩] =
        some [.object props ⟨0, t.width⟩] := by
      have hprops := rowsOf?_place.2 ⟨rows, rest, rfl, hlayout.tail, hrows⟩
      rw [← properties?_eq] at hprops
      have hwidth : t.width = widthOf (rowNodes rows rest) + 2 := by
        rw [hlayout.text, braced, Text.width_append, Text.width_cons, widthOf]
        have hopen : '{'.utf8Size = 1 := rfl
        have hclose : Text.width ['}'] = 1 := rfl
        omega
      rw [readRows, Row.trees, segmentExpr?_braces false]
      simp only [widthOf_nil, Nat.zero_add, hprops, Option.map_some, Option.bind_some, readRows, hwidth]
    refine arguments?_eq_some.2 ⟨_, [], [')'], ⟨?_, .inl rfl, ⟨[], List.forall_mem_nil _, rfl, trivial⟩, ?_⟩, hread⟩
    · rw [hlayout.text]
      simp [braced, rowNodes, commas, Row.nodes, Bracket.opening, Bracket.closing]
    · have hnodes : lexemesOf (rowNodes [⟨[], [.group .curly (rowNodes rows rest)], [], blank_nil, hcore,
          blank_nil⟩] []) = Bracket.curly.opening :: (lexemesOf (rowNodes rows rest) ++
            [Bracket.curly.closing]) := by
        simp [rowNodes, commas, Row.nodes, Node.lexemes]
      rw [hnodes]
      exact legible_bracketed.2 hlayout.legible

theorem readRows_split {α : Type} {read : List Tree → Option α} {offset : Nat} {as : List Row} {r : Row}
    {bs : List Row} {found : List α} (h : readRows read offset (as ++ r :: bs) = some found) :
    ∃ a, found[as.length]? = some a ∧ read (r.trees (offset + widthOf (rowsBefore as))) = some a := by
  induction as generalizing offset found with
  | nil =>
      obtain ⟨a, ha, hlater⟩ := Option.bind_eq_some_iff.1 h
      obtain ⟨found', -, rfl⟩ := Option.map_eq_some_iff.1 hlater
      exact ⟨a, rfl, ha⟩
  | cons s as ih =>
      obtain ⟨b, -, hlater⟩ := Option.bind_eq_some_iff.1 h
      obtain ⟨found', hfound, rfl⟩ := Option.map_eq_some_iff.1 hlater
      obtain ⟨a, ha, hread⟩ := ih hfound
      refine ⟨a, ha, ?_⟩
      have hoffset : offset + widthOf (rowsBefore (s :: as)) =
          offset + s.width + 1 + widthOf (rowsBefore as) := by
        simp only [rowsBefore, List.flatMap_cons, widthOf_append, widthOf_comma, Row.width]
        omega
      rwa [hoffset]

/-- The property of a row is read from its core, at the place where the core stands. -/
theorem ObjectLayout.property {t : Text} {rows : List Row} {rest : List (List Node)}
    (h : ObjectLayout t rows rest) {props : List (Property Expr)}
    (hread : readRows property? 1 rows = some props) {i : Nat} {r : Row} (hr : rows[i]? = some r) :
    ∃ p front back, props[i]? = some p ∧ t = front ++ textOf r.core ++ back ∧
      property? (placeRow front.width r.core) = some p := by
  obtain ⟨as, bs, rfl, rfl⟩ := exists_split hr
  obtain ⟨p, hp, hproperty⟩ := readRows_split hread
  refine ⟨p, '{' :: textOf (rowsBefore as ++ r.lead), textOf (r.trail ++ rowsBehind bs rest) ++ ['}'],
    hp, ?_, ?_⟩
  · rw [h.text, braced, rowNodes_append, Row.nodes]
    simp
  · have hwidth : Text.width ('{' :: textOf (rowsBefore as ++ r.lead)) =
        1 + widthOf (rowsBefore as) + widthOf r.lead := by
      rw [Text.width_cons, ← widthOf, widthOf_append, Nat.add_assoc]
      rfl
    rw [hwidth]
    exact hproperty

section

variable {core : List Node} {p : Property Expr} {front back t : Text}
  (hproperty : property? (placeRow front.width core) = some p) (ht : t = front ++ textOf core ++ back)

include hproperty

/-- The key of a property does not depend on its place. -/
theorem key_of_core {front' : Text} {q : Property Expr}
    (h : property? (placeRow front'.width core) = some q) : p.key = q.key := by
  have hshift (m : Nat) : property? (placeRow m core) =
      (property? (placeRow 0 core)).map (Property.shift m) := by
    have := placeRow_shift m 0 core
    rw [Nat.zero_add] at this
    rw [this, property?_shift]
  rw [hshift] at hproperty h
  obtain ⟨p', hp', rfl⟩ := Option.map_eq_some_iff.1 hproperty
  obtain ⟨q', hq', rfl⟩ := Option.map_eq_some_iff.1 h
  rw [hp', Option.some.injEq] at hq'
  subst hq'
  rfl

/-- The key of a property is read from the token that its core begins with. -/
theorem readAs_of_key (hcore : Solid core) {key : Text} (hkey : p.key = some key) : ReadAs key core := by
  obtain ⟨n, hn, htrivia⟩ := hcore.first
  obtain ⟨ns, rfl⟩ := List.head?_eq_some_iff.1 hn
  rw [placeRow] at hproperty
  cases n with
  | leaf l plain =>
      obtain ⟨found, text⟩ := l
      cases found with
      | trivia kind => cases htrivia
      | token kind =>
          change property? (.leaf ⟨kind, text, front.width⟩ :: _) = some p at hproperty
          rw [property?] at hproperty
          split at hproperty
          · obtain ⟨v, hv, rfl⟩ := Option.map_eq_some_iff.1 hproperty
            cases hkey
          · obtain ⟨found, hfound, hrest⟩ := Option.bind_eq_some_iff.1 hproperty
            have hsame : p.key = some found := by
              split at hrest
              · split at hrest
                · cases hrest
                  rfl
                · cases hrest
              · obtain ⟨v, hv, rfl⟩ := Option.map_eq_some_iff.1 hrest
                rfl
            rw [← hfound, hkey] at hsame
            exact ⟨_, plain, ns, kind, rfl, rfl, fun start => hsame.symm⟩
  | comma => cases hcore.uncut .comma List.mem_cons_self
  | group shape inside =>
      change property? (.group shape ⟨front.width, _⟩ _ :: _) = some p at hproperty
      rw [property?] at hproperty
      split at hproperty
      · obtain ⟨v, hv, rfl⟩ := Option.map_eq_some_iff.1 hproperty
        cases hkey
      · cases hproperty

theorem keyed_property {key : Text} (hkey : IsKey key) {part value : List Node}
    (hkeyed : Keyed key core part value) :
    p.key = some key ∧
      segmentExpr? false (placeRow (front.width + widthOf part) value) = some p.value := by
  obtain ⟨span, hread⟩ := property?_keyPart hkey.label hkeyed.part value front.width
  rw [← hkeyed.core, hproperty] at hread
  obtain ⟨v, hv, rfl⟩ := Option.map_eq_some_iff.1 hread.symm
  exact ⟨rfl, hv⟩

theorem written_property {e : PropertyEdit} (hkey : IsKey e.key) (hwritten : Written e core) :
    p.key = some e.key := by
  obtain ⟨part, hpart, hcore⟩ := hwritten
  exact (keyed_property hproperty hkey (hpart.keyed hcore)).1

include ht

theorem slice_property (hcore : Solid core) : t.slice p.span = textOf core := by
  obtain ⟨tree, trees, htrees, hstart, hstop⟩ := hcore.placeRow_eq front.width
  rw [htrees] at hproperty
  rw [property?_span hproperty, hstart, hstop, ht]
  exact Text.slice_middle _ _ _

/-- The value of a property stands where the core goes on behind the key. -/
theorem slice_value {key : Text} (hkey : IsKey key) {part value : List Node}
    (hkeyed : Keyed key core part value) (hvalue : Solid value) :
    t.slice p.value.span = textOf value := by
  obtain ⟨-, hread⟩ := keyed_property hproperty hkey hkeyed
  obtain ⟨tree, trees, htrees, hstart, hstop⟩ := hvalue.placeRow_eq (front.width + widthOf part)
  rw [htrees] at hread
  have htext : t = (front ++ textOf part) ++ textOf value ++ back := by
    rw [ht, hkeyed.core]
    simp
  have hslice := Text.slice_middle (front ++ textOf part) (textOf value) back
  rw [Text.width_append] at hslice
  rw [segmentExpr?_span hread, hstart, hstop, htext]
  exact hslice

theorem written_value {e : PropertyEdit} (hkey : IsKey e.key) (hwritten : Written e core) :
    ∃ span, p.value = .number span ∧ t.slice span = e.value := by
  obtain ⟨part, hpart, hcore⟩ := hwritten
  have hkeyed : Keyed e.key core part [.number e.value] := hpart.keyed hcore
  have hslice := slice_value hproperty ht hkey hkeyed (solid_number e.value)
  obtain ⟨-, hread⟩ := keyed_property hproperty hkey hkeyed
  have hvalue : p.value = .number p.value.span := by
    have hnumber : segmentExpr? false (placeRow (front.width + widthOf part) [.number e.value]) =
        some (.number ⟨front.width + widthOf part, front.width + widthOf part + e.value.width⟩) := rfl
    rw [hnumber, Option.some.injEq] at hread
    rw [← hread]
    rfl
  exact ⟨p.value.span, hvalue, by rw [hslice, textOf_number]⟩

end

end ObjectText
end PugSize
