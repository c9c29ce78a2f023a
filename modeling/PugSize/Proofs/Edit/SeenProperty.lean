import PugSize.Proofs.Edit.ObjectEdits
import PugSize.Proofs.Edit.RowPlaces

/-!
Properties that are seen under a key, told from the text of an object. A property is seen unless a byte-order
mark stands before it; the last one that is seen under a key is the one whose value is found, and of that counts
what comes before the first comment and the first line feed outside brackets.
-/

namespace PugSize

open Script CharClass

namespace ObjectText

/-- Whether a property is seen when it is looked for under a key: it is written with the key, and in the white
space and among the comments before it there is no byte-order mark. -/
structure IsSeen (t key : Text) (p : Property Expr) : Prop where
  name : isWritten key (t.slice p.span) = true
  before : ('\ufeff', code 1) ∉ ((t.takeBytes p.span.start).zip (ofText t)).reverse.takeWhile
    fun x => x.2 == .comment || isSkipped x.1

/-- Whether the property at a place is the last that is seen under a key. -/
structure LastSeen (t key : Text) (props : List (Property Expr)) (i : Nat) (p : Property Expr) : Prop where
  place : props[i]? = some p
  seen : IsSeen t key p
  later : ∀ (j : Nat) (q : Property Expr), i < j → props[j]? = some q → ¬ IsSeen t key q

/-- Whether the row at a place is the last that is written with a key. -/
structure LastWrites (key : Text) (rows : List Row) (i : Nat) (r : Row) (part value : List Node) : Prop where
  place : rows[i]? = some r
  writes : Writes key r part value
  later : ∀ (j : Nat) (s : Row), i < j → rows[j]? = some s → ∀ part value, ¬ Writes key s part value

/-- What stands of the value of a property, white space behind the colon apart, before the first comment and the
first line feed outside brackets and literals. -/
def valueFront (t : Text) (p : Property Expr) : Text :=
  let marks := (t.slice p.span).zip (ofText (t.slice p.span))
  let value := ((marks.dropWhile fun x => x.1 != ':').drop 1).dropWhile fun x => Text.isBlank x.1
  (value.takeWhile fun x => !(x.2 == .comment || (x.1 == '\n' && x.2 == .code 0))).map Prod.fst

/-- Whether the property at a place is the last that is seen under a key, and the front of its value is an empty
literal. -/
def SeemsEmpty (t : Text) (props : List (Property Expr)) (key : Text) (i : Nat) : Prop :=
  ∃ p, LastSeen t key props i p ∧ isVacant (valueFront t p) = true

/-- White space and comments have a byte-order mark outside the comments or none at all. -/
theorem spaced_iff_marks {ns : List Node} {after : Text} (h : Legible (lexemesOf ns) after) (hblank : Blank ns) :
    Spaced ns ↔ ('\ufeff', code 1) ∉ marksOf 1 ns := by
  constructor
  · intro hspaced hmem
    have := isPassed_of_spaced hspaced 1 _ hmem
    revert this
    decide
  · intro hmark
    apply Classical.byContradiction
    intro hspaced
    obtain ⟨⟨c, k⟩, hx, hpassed⟩ := exists_stop h hblank hspaced 1
    simp only [isPassed, Bool.or_eq_false_iff, beq_eq_false_iff_ne] at hpassed
    obtain ⟨rfl, hskipped⟩ := (marks_of_blank h hblank 1 _ hx).resolve_left hpassed.1
    simp only [isSkipped, hpassed.2, Bool.false_or, beq_iff_eq] at hskipped
    exact hmark (hskipped ▸ hx)

/-- On the way back from a row over white space and comments the brace or the comma before it is reached. -/
theorem takeWhile_lead {as : List Row} {lead : List Node} {after : Text} (h : Legible (lexemesOf lead) after)
    (hblank : Blank lead) :
    (('{', CharClass.code 0) :: marksOf 1 (rowsBefore as ++ lead)).reverse.takeWhile
      (fun x => x.2 == .comment || isSkipped x.1) = (marksOf 1 lead).reverse := by
  obtain ⟨x, before, hbefore, hopener⟩ := exists_opener as
  have hstop : (x.2 == .comment || isSkipped x.1) = false := by
    obtain ⟨c, k⟩ := x
    simp only [isOpener, Bool.or_eq_true, Bool.and_eq_true, beq_iff_eq] at hopener
    obtain ⟨rfl, rfl⟩ | ⟨rfl, rfl⟩ := hopener
    · decide
    · decide
  rw [marksOf_append, ← List.cons_append, List.reverse_append, List.reverse_cons, hbefore,
    List.takeWhile_append_of_pos, List.takeWhile_cons_of_neg (by simp [hstop]), List.append_nil]
  intro y hy
  obtain hcomment | ⟨-, hskipped⟩ := marks_of_blank h hblank 1 y (List.mem_reverse.1 hy)
  · rw [hcomment]
    rfl
  · rw [hskipped, Bool.or_true]

/-- A closing brace among nodes lies inside brackets. -/
theorem not_brace {ns : List Node} {after : Text} (h : Legible (lexemesOf ns) after) :
    ('}', code 1) ∉ marksOf 1 ns := by
  intro hbrace
  obtain ⟨n, hn, hmem⟩ := mem_marksOf hbrace
  obtain ⟨as, bs, rfl⟩ := List.append_of_mem hn
  rw [lexemesOf_append, lexemesOf_cons] at h
  have hlegible := (legible_append.1 (legible_append.1 h).2).1
  cases n with
  | leaf l plain => exact absurd (by simp) (code_of_leaf hlegible.1 plain hmem)
  | comma => cases List.mem_singleton.1 hmem
  | group shape inside =>
      rw [Node.lexemes, List.cons_append] at hlegible
      have hdeep := le_of_mem_marks _ inside 2 (legible_append.1 hlegible.2).1
      rw [nodeMarks, List.mem_append, List.mem_append] at hmem
      obtain (hmem | hmem) | hmem := hmem
      · have := (List.of_mem_zip hmem).1
        cases shape <;> exact absurd this (by decide)
      · exact absurd (hdeep _ hmem 1 rfl) (by decide)
      · cases List.mem_singleton.1 (List.of_mem_zip hmem).2

/-- In nodes without a comma a value ends at a comment or at a line feed outside brackets. -/
theorem endsValue_uncut {ns : List Node} {after : Text} (h : Legible (lexemesOf ns) after) (huncut : Uncut ns)
    {x : Char × CharClass} (hx : x ∈ marksOf 1 ns) :
    endsValue x = (x.2 == .comment || (x.1 == '\n' && x.2 == .code 1)) := by
  obtain ⟨c, k⟩ := x
  cases k with
  | comment => rfl
  | literal =>
      rw [Bool.eq_iff_iff]
      simp [endsValue]
  | code depth =>
      by_cases hdepth : depth = 1
      · subst hdepth
        have hcomma : c ≠ ',' := fun heq => absurd ((inner_of_uncut h huncut 1 _ hx 1 rfl).2 heq) (by decide)
        have hbrace : c ≠ '}' := by
          rintro rfl
          exact not_brace h hx
        rw [Bool.eq_iff_iff]
        simp [endsValue, hcomma, hbrace]
      · rw [Bool.eq_iff_iff]
        simp [endsValue, hdepth]

theorem passed_uncut {ns : List Node} {after : Text} (h : Legible (lexemesOf ns) after) (huncut : Uncut ns) :
    passed ns =
      ((marksOf 0 ns).takeWhile fun x => !(x.2 == .comment || (x.1 == '\n' && x.2 == .code 0))).map Prod.fst := by
  have hends : ∀ x ∈ marksOf 0 ns, (!endsValue (Prod.map id deepen x)) =
      !(x.2 == .comment || (x.1 == '\n' && x.2 == .code 0)) := by
    rintro ⟨c, k⟩ hx
    have hx' : (c, k.deepen) ∈ marksOf 1 ns := by
      rw [marksOf_succ]
      exact List.mem_map.2 ⟨_, hx, rfl⟩
    rw [Prod.map_apply, id_eq, endsValue_uncut h huncut hx', Bool.eq_iff_iff]
    cases k <;> simp [deepen]
  rw [passed, marksOf_succ, List.takeWhile_map, List.map_map]
  exact congrArg _ (takeWhile_congr hends)

/-- Behind the colon of a row that is written with a key stands its value. -/
theorem Keyed.behind_colon {key : Text} (hkey : IsLabel key) {core part value : List Node} {after : Text}
    (h : Keyed key core part value) (hlegible : Legible (lexemesOf core) after) :
    (((marksOf 0 core).dropWhile fun x => x.1 != ':').drop 1).dropWhile (fun x => Text.isBlank x.1) =
      marksOf 0 value := by
  obtain ⟨rfl, ⟨plain, hname, hgap, hgap'⟩, n, hn, hnGap⟩ := h
  rename_i name gap gap'
  have hparts : .leaf name plain :: gap ++ colonNode :: gap' ++ value =
      (.leaf name plain :: gap) ++ colonNode :: (gap' ++ value) := by simp
  rw [hparts] at hlegible ⊢
  rw [lexemesOf_append] at hlegible
  obtain ⟨hfront, -, hbehind⟩ := legible_append.1 hlegible
  change Legible (lexemesOf (gap' ++ value)) after at hbehind
  rw [lexemesOf_append] at hbehind
  obtain ⟨hgapLegible, hvalue⟩ := legible_append.1 hbehind
  -- Neither the name nor the white space has a colon in it.
  have hname' : ∀ x ∈ marksOf 0 (.leaf name plain :: gap), (x.1 != ':') = true := by
    intro x hx
    have hmem : x.1 ∈ textOf (.leaf name plain :: gap) := by
      rw [← fst_marksOf hfront 0]
      exact List.mem_map_of_mem hx
    obtain ⟨quote, hquote, htext⟩ := hname.text
    rw [textOf_cons, textOf_leaf, htext] at hmem
    exact bne_iff_ne.2 (ne_of_mem_of_not_mem hmem (colon_not_mem hkey hquote hgap.text))
  have hblank : ∀ x ∈ marksOf 0 gap', Text.isBlank x.1 = true := by
    intro x hx
    refine hgap'.text _ ?_
    rw [← fst_marksOf hgapLegible 0]
    exact List.mem_map_of_mem hx
  rw [marksOf_append, List.dropWhile_append_of_pos hname']
  show (((':', CharClass.code 0) :: marksOf 0 (gap' ++ value)).dropWhile _ |>.drop 1).dropWhile _ = _
  rw [List.dropWhile_cons_of_neg (by simp), List.drop_succ_cons, List.drop_zero, marksOf_append,
    List.dropWhile_append_of_pos hblank]
  have htext := fst_marksOf hvalue 0
  obtain ⟨ns, rfl⟩ := List.head?_eq_some_iff.1 hn
  cases hmarks : marksOf 0 (n :: ns) with
  | nil => rfl
  | cons x xs =>
      rw [hmarks, List.map_cons] at htext
      rw [List.dropWhile_cons_of_neg]
      simp [not_isBlank_of_isGap hvalue hnGap x.1 (by rw [← htext]; rfl)]

namespace ObjectLayout

section

variable {key t : Text} {rows : List Row} {rest : List (List Node)} (h : ObjectLayout t rows rest)
  {props : List (Property Expr)} (hread : readRows property? 1 rows = some props) {i : Nat} {p : Property Expr}
  (hp : props[i]? = some p) {r : Row} (hr : rows[i]? = some r)

include h hread hp hr

/-- Which properties are not seen under a key is told from the rows. -/
theorem not_isSeen_iff : ¬ IsSeen t key p ↔ Unseen key r := by
  obtain ⟨s, front, back, hs, htext, hproperty⟩ := h.row hread hp
  obtain rfl : r = s := Option.some.inj (hr.symm.trans hs)
  have hname := slice_property hproperty htext r.solid
  obtain ⟨as, bs, rfl, rfl⟩ := exists_split hr
  have hnodes := rowNodes_core as r bs rest
  rw [List.append_assoc] at hnodes
  have hlegible := h.legible
  rw [hnodes] at hlegible
  have hzip := zip_braced hlegible
  have hbefore := h.takeBytes_property hread hp
  rw [List.cons_append, ← textOf_append] at hbefore
  rw [← hnodes, ← h.text, ← hbefore] at hzip
  rw [lexemesOf_append, lexemesOf_append] at hlegible
  have hlead := (legible_append.1 (legible_append.1 hlegible).1).2
  have hspaced := spaced_iff_marks hlead r.blank_lead
  rw [← List.mem_reverse, ← takeWhile_lead hlead r.blank_lead, ← hzip] at hspaced
  constructor
  · intro hnot hlead
    rw [Bool.eq_false_iff]
    intro hwritten
    exact hnot ⟨by rw [hname]; exact hwritten, hspaced.1 hlead⟩
  · intro hunseen hseen
    have hwritten := hunseen (hspaced.2 hseen.before)
    rw [← hname, hseen.name] at hwritten
    cases hwritten

end

section

variable {key : Text} (hkey : IsKey key) {t : Text} {rows : List Row} {rest : List (List Node)}
  (h : ObjectLayout t rows rest) {props : List (Property Expr)} (hread : readRows property? 1 rows = some props)
  {i : Nat} {p : Property Expr} (hp : props[i]? = some p) {r : Row} (hr : rows[i]? = some r)

include hkey h hread hp hr

/-- An identifier is seen where a row is written with it. -/
theorem isSeen_iff : IsSeen t key p ↔ ∃ part value, Writes key r part value := by
  rw [← not_iff_not, h.not_isSeen_iff hread hp hr, h.unseen_iff (List.mem_of_getElem? hr) (.inl hkey.bare)]
  simp only [not_exists]

/-- The front of a value is what is passed of it. -/
theorem valueFront_eq {part value : List Node} (hkeyed : Keyed key r.core part value) :
    valueFront t p = passed value := by
  obtain ⟨s, front, back, hs, htext, hproperty⟩ := h.row hread hp
  obtain rfl : r = s := Option.some.inj (hr.symm.trans hs)
  obtain ⟨as, bs, rfl, rfl⟩ := exists_split hr
  have hlegible := h.legible
  rw [rowNodes_core, lexemesOf_append, lexemesOf_append] at hlegible
  have hcore : Legible (lexemesOf r.core) [] :=
    (legible_append.1 (legible_append.1 hlegible).1).2.swap_token Apart.nil (by simp)
      fun l hl => r.solid.last_token hl
  have hmarks := marked_nodes [] r.core 0 hcore
  rw [List.append_nil, marked, marked, List.zip_nil_left, List.append_nil] at hmarks
  have hvalue := hcore
  rw [hkeyed.core, lexemesOf_append] at hvalue
  have huncut : Uncut value := fun n hn => r.solid.uncut n (by rw [hkeyed.core]; exact List.mem_append_right _ hn)
  rw [passed_uncut (legible_append.1 hvalue).2 huncut, valueFront, slice_property hproperty htext r.solid, ofText,
    hmarks, hkeyed.behind_colon hkey.label hcore]

end

section

variable {t : Text} {rows : List Row} {rest : List (List Node)} (h : ObjectLayout t rows rest)
  {props : List (Property Expr)} (hread : readRows property? 1 rows = some props) {key : Text} (hkey : IsKey key)

include h hread hkey

/-- The last property that is seen under a key is told from the rows. -/
theorem lastWrites_of_lastSeen {i : Nat} {p : Property Expr} (hlast : LastSeen t key props i p) :
    ∃ r part value, LastWrites key rows i r part value := by
  obtain ⟨hp, hseen, hlater⟩ := hlast
  obtain ⟨r, -, -, hr, -, -⟩ := h.row hread hp
  obtain ⟨part, value, hwrites⟩ := (h.isSeen_iff hkey hread hp hr).1 hseen
  refine ⟨r, part, value, hr, hwrites, fun j s hj hs part' value' hs' => ?_⟩
  obtain ⟨q, -, -, hq, -, -⟩ := h.property hread hs
  exact hlater j q hj hq ((h.isSeen_iff hkey hread hq hs).2 ⟨part', value', hs'⟩)

theorem lastSeen_of_lastWrites {i : Nat} {r : Row} {part value : List Node}
    (hlast : LastWrites key rows i r part value) : ∃ p, LastSeen t key props i p := by
  obtain ⟨hr, hwrites, hlater⟩ := hlast
  obtain ⟨p, -, -, hp, -, -⟩ := h.property hread hr
  refine ⟨p, hp, (h.isSeen_iff hkey hread hp hr).2 ⟨part, value, hwrites⟩, fun j q hj hq hseen => ?_⟩
  obtain ⟨s, -, -, hs, -, -⟩ := h.row hread hq
  obtain ⟨part', value', hs'⟩ := (h.isSeen_iff hkey hread hq hs).1 hseen
  exact hlater j s hj hs part' value' hs'

/-- Where no value is found for a key, no property is seen under it. -/
theorem unseen (hnone : valueSpan? t key = none) : ∀ p ∈ props, ¬ IsSeen t key p := by
  intro p hp hseen
  obtain ⟨i, hi⟩ := List.getElem?_of_mem hp
  obtain ⟨r, -, -, hr, -, -⟩ := h.row hread hi
  obtain ⟨part, value, hwrites⟩ := (h.isSeen_iff hkey hread hi hr).1 hseen
  obtain hunwritten | ⟨as, s, bs, part', value', rfl, hwrites', hlater⟩ := last_writes key rows
  · exact hunwritten r (List.mem_of_getElem? hr) part value hwrites
  · obtain ⟨span, hspan, -⟩ := h.found_inside hkey hwrites' hlater
    rw [hnone] at hspan
    cases hspan

end

end ObjectLayout

end ObjectText

end PugSize
