import Mathlib
import PugSize.Proofs.Edit.Shaped

/-!
Properties written into an object without comments. The result is read as an object again: each key
that is written ends up with its number, all other properties keep their text and their order, and
the keys that were not there stand behind them.
-/

namespace PugSize

open Script

namespace CharClass

/-- The class of a character that lies one bracket further in. -/
def deepen : CharClass → CharClass
  | code depth => code (depth + 1)
  | literal => literal
  | comment => comment

theorem ofLexeme_succ (depth : Nat) (l : Lexeme) :
    ofLexeme (depth + 1) l = (ofLexeme depth l).map deepen := by
  obtain ⟨kind, text⟩ := l
  cases kind with
  | trivia kind => cases kind <;> simp [ofLexeme, deepen]
  | token kind => cases kind <;> simp [ofLexeme, deepen]

theorem marksOf_succ : (ns : List Node) → (depth : Nat) →
    marksOf (depth + 1) ns = (marksOf depth ns).map (Prod.map id deepen)
  | [], _ => rfl
  | .leaf l plain :: ns, depth => by
      rw [marksOf, marksOf, nodeMarks, nodeMarks, marksOf_succ ns depth, ofLexeme_succ, List.map_append,
        List.zip_map_right]
  | .comma :: ns, depth => by
      rw [marksOf, marksOf, nodeMarks, nodeMarks, marksOf_succ ns depth, List.map_append]
      rfl
  | .group shape inside :: ns, depth => by
      rw [marksOf, marksOf, nodeMarks, nodeMarks, marksOf_succ ns depth, marksOf_succ inside (depth + 1),
        List.map_append, List.map_append, List.map_append]
      cases shape <;> rfl

end CharClass

namespace ObjectText

open CharClass

theorem find?_eq_some {props : List (Property Expr)} {key : Text} {p : Property Expr} :
    Property.find? props key = some p ↔ ∃ i, props[i]? = some p ∧ p.key = some key ∧
      ∀ (j : Nat) (q : Property Expr), i < j → props[j]? = some q → q.key ≠ some key := by
  rw [Property.find?, List.find?_eq_some_iff_append]
  constructor
  · rintro ⟨hp, as, bs, hreverse, has⟩
    have hprops : props = bs.reverse ++ p :: as.reverse := by
      have := congrArg List.reverse hreverse
      simpa using this
    refine ⟨bs.reverse.length, by rw [hprops]; simp, by simpa using hp, ?_⟩
    intro j q hj hq
    rw [hprops, List.getElem?_append_right (by omega)] at hq
    obtain ⟨n, hn⟩ : ∃ n, j - bs.reverse.length = n + 1 := ⟨j - bs.reverse.length - 1, by omega⟩
    rw [hn, List.getElem?_cons_succ] at hq
    simpa using has q (List.mem_reverse.1 (List.mem_of_getElem? hq))
  · rintro ⟨i, hi, hkey, hlater⟩
    obtain ⟨as, bs, rfl, rfl⟩ := exists_split hi
    refine ⟨by simpa using hkey, bs.reverse, as.reverse, by simp, ?_⟩
    intro q hq
    obtain ⟨j, hj⟩ := List.getElem?_of_mem (List.mem_reverse.1 hq)
    have := hlater (as.length + 1 + j) q (by omega) (getElem?_later p hj)
    simpa using this

/-- The row and the place that a property is read from. -/
theorem ObjectLayout.row {t : Text} {rows : List Row} {rest : List (List Node)}
    (h : ObjectLayout t rows rest) {props : List (Property Expr)}
    (hread : readRows property? 1 rows = some props) {i : Nat} {p : Property Expr}
    (hp : props[i]? = some p) :
    ∃ r front back, rows[i]? = some r ∧ t = front ++ textOf r.core ++ back ∧
      property? (placeRow front.width r.core) = some p := by
  have hi : i < rows.length := by
    rw [← length_readRows hread]
    exact (List.getElem?_eq_some_iff.1 hp).1
  have hr := List.getElem?_eq_getElem hi
  obtain ⟨q, front, back, hq, htext, hproperty⟩ := h.property hread hr
  rw [hp, Option.some.injEq] at hq
  subst hq
  exact ⟨rows[i], front, back, hr, htext, hproperty⟩

/-- An object in whose text no comment is scanned, and no white space but the plainest, is plain. -/
theorem ObjectLayout.plain {t : Text} {rows : List Row} {rest : List (List Node)}
    (h : ObjectLayout t rows rest)
    (hcomment : ∀ l ∈ (scan t).1, l.kind ≠ .trivia .lineComment ∧ l.kind ≠ .trivia .blockComment)
    (hspace : ∀ c ∈ t, isSkipped c = true → c = ' ' ∨ c = '\t' ∨ c = '\n') :
    PlainLayout t rows rest := by
  refine ⟨h, fun l hl => ⟨h.uncommented hcomment l hl, fun c hc => hspace c ?_⟩⟩
  rw [h.text, braced]
  exact List.mem_append_left _ (List.mem_cons_of_mem _ (mem_textOf.2 ⟨l, hl, hc⟩))

/-- Whether a property of an object can be written: no property is written with the key, or the last
one that has it is, and its value has no line feed outside brackets and literals. -/
def Writable (t : Text) (props : List (Property Expr)) (key : Text) : Prop :=
  (∀ p ∈ props, isWritten key (t.slice p.span) = false) ∨
  ∃ p, Property.find? props key = some p ∧ isWritten key (t.slice p.span) = true ∧
    ('\n', code 0) ∉ (t.slice p.value.span).zip (ofText (t.slice p.value.span))

/-- Whether a property is added when it is written. -/
def isAdded (t : Text) (props : List (Property Expr)) (e : PropertyEdit) : Bool :=
  props.all fun p => !isWritten e.key (t.slice p.span)

theorem isAdded_iff {t : Text} {props : List (Property Expr)} {e : PropertyEdit} :
    isAdded t props e = true ↔ ∀ p ∈ props, isWritten e.key (t.slice p.span) = false := by
  simp [isAdded]

/-- Whether nodes have a line feed outside brackets and literals is told from their text. -/
theorem oneLine_iff_text {ns : List Node} (h : Legible (lexemesOf ns) []) :
    OneLine ns ↔ ('\n', code 0) ∉ (textOf ns).zip (ofText (textOf ns)) := by
  have hmarks := marked_nodes [] ns 0 h
  rw [List.append_nil, marked, marked, List.zip_nil_left, List.append_nil] at hmarks
  have hdeepen (k : CharClass) : k.deepen = code 1 ↔ k = code 0 := by
    cases k <;> simp [deepen]
  rw [ofText, hmarks, OneLine, marksOf_succ, not_iff_not, List.mem_map]
  constructor
  · rintro ⟨⟨c, k⟩, hx, heq⟩
    obtain ⟨rfl, hk⟩ := Prod.mk.inj heq
    rwa [← (hdeepen k).1 hk]
  · intro hx
    exact ⟨_, hx, rfl⟩

section

variable {t : Text} {rows : List Row} {rest : List (List Node)} (h : PlainLayout t rows rest)
  {props : List (Property Expr)} (hread : readRows property? 1 rows = some props)
  {key : Text} (hkey : IsKey key)

include h hread hkey

/-- Which properties are written with a key is told from the cores of the rows. -/
theorem PlainLayout.isWritten_iff {i : Nat} {p : Property Expr} (hp : props[i]? = some p) :
    isWritten key (t.slice p.span) = true ↔
      ∃ c part value, (rows.map Row.core)[i]? = some c ∧ Keyed key c part value := by
  obtain ⟨r, front, back, hr, htext, hproperty⟩ := h.toObjectLayout.row hread hp
  rw [slice_property hproperty htext r.solid,
    h.isWritten_core (List.mem_of_getElem? hr) (.inl hkey.bare), List.getElem?_map, hr]
  constructor
  · rintro ⟨part, value, hkeyed⟩
    exact ⟨r.core, part, value, rfl, hkeyed⟩
  · rintro ⟨c, part, value, hc, hkeyed⟩
    rw [← Option.some.inj hc] at hkeyed
    exact ⟨part, value, hkeyed⟩

theorem PlainLayout.unkeyed_iff :
    Unkeyed key (rows.map Row.core) ↔ ∀ p ∈ props, isWritten key (t.slice p.span) = false := by
  constructor
  · intro hnone p hp
    obtain ⟨i, hi⟩ := List.getElem?_of_mem hp
    apply Bool.eq_false_iff.2
    intro hwritten
    obtain ⟨c, part, value, hc, hkeyed⟩ := (h.isWritten_iff hread hkey hi).1 hwritten
    exact hnone c (List.mem_of_getElem? hc) part value hkeyed
  · intro hnone c hc part value hkeyed
    obtain ⟨i, hi⟩ := List.getElem?_of_mem hc
    have hcore := hi
    rw [List.getElem?_map] at hcore
    obtain ⟨r, hr, -⟩ := Option.map_eq_some_iff.1 hcore
    obtain ⟨p, -, -, hp, -, -⟩ := h.toObjectLayout.property hread hr
    have hwritten := (h.isWritten_iff hread hkey hp).2 ⟨c, part, value, hi, hkeyed⟩
    rw [hnone p (List.mem_of_getElem? hp)] at hwritten
    cases hwritten

/-- The value of a property that is written with a key has no line feed outside brackets and literals
if its text has none. -/
theorem PlainLayout.oneLine {i : Nat} {p : Property Expr} (hp : props[i]? = some p) {c : List Node}
    {part value : List Node} (hc : (rows.map Row.core)[i]? = some c)
    (hkeyed : Keyed key c part value)
    (hline : ('\n', code 0) ∉ (t.slice p.value.span).zip (ofText (t.slice p.value.span))) :
    OneLine value := by
  obtain ⟨r, front, back, hr, htext, hproperty⟩ := h.toObjectLayout.row hread hp
  rw [List.getElem?_map, hr] at hc
  obtain rfl := Option.some.inj hc
  obtain ⟨as, bs, rfl⟩ := List.append_of_mem (List.mem_of_getElem? hr)
  have hlegible := h.legible
  have hplain := h.plain
  rw [hkeyed.rowNodes_eq] at hlegible hplain
  simp only [List.append_assoc, lexemesOf_append, legible_append] at hlegible
  simp only [plain_append] at hplain
  obtain ⟨-, -, -, hvalueLegible, -⟩ := hlegible
  obtain ⟨-, ⟨hvaluePlain, -⟩, -⟩ := hplain
  obtain ⟨n, hn, hgap⟩ := hkeyed.value
  obtain ⟨ns, rfl⟩ := List.head?_eq_some_iff.1 hn
  have hcore : Solid (part ++ n :: ns) := hkeyed.core ▸ r.solid
  have hsolid : Solid (n :: ns) := by
    refine ⟨hcore.uncut_behind, ⟨n, rfl, ?_⟩, ?_⟩
    · apply Bool.eq_false_iff.2
      intro htrivia
      rw [lexemesOf_cons] at hvalueLegible
      have hblank := isPlainBlank_of_plain (legible_append.1 hvalueLegible).1
        (hvaluePlain.mem List.mem_cons_self) htrivia
      rw [isGap_of_isPlainBlank hblank] at hgap
      cases hgap
    · exact ⟨_, List.getLast?_eq_some_getLast (List.cons_ne_nil n ns),
        hcore.last_behind (List.getLast?_eq_some_getLast _)⟩
  rw [slice_value hproperty htext hkey hkeyed hsolid] at hline
  have hend : Legible (lexemesOf (n :: ns)) [] :=
    hvalueLegible.swap_token Apart.nil (by simp) fun l hl => hsolid.last_token hl
  exact (oneLine_iff_text hend).2 hline

/-- The last property that has a key, if it is written with it, stands in the last row that is. -/
theorem PlainLayout.exists_lastKeyed {p : Property Expr} (hfind : Property.find? props key = some p)
    (hwritten : isWritten key (t.slice p.span) = true) :
    ∃ i part value, props[i]? = some p ∧
      (∀ (j : Nat) (q : Property Expr), i < j → props[j]? = some q → q.key ≠ some key) ∧
      LastKeyed key (rows.map Row.core) i part value := by
  obtain ⟨i, hi, -, hlater⟩ := find?_eq_some.1 hfind
  obtain ⟨c, part, value, hc, hkeyed⟩ := (h.isWritten_iff hread hkey hi).1 hwritten
  refine ⟨i, part, value, hi, hlater, ⟨c, hc, hkeyed⟩, ?_⟩
  intro j d hij hd part value hkeyed
  rw [List.getElem?_map] at hd
  obtain ⟨r, hr, rfl⟩ := Option.map_eq_some_iff.1 hd
  obtain ⟨q, front, back, hq, -, hproperty⟩ := h.toObjectLayout.property hread hr
  exact hlater j q hij hq (keyed_property hproperty hkey hkeyed).1

theorem PlainLayout.ready (hwritable : Writable t props key) : Ready key (rows.map Row.core) := by
  obtain hnone | ⟨p, hfind, hwritten, hline⟩ := hwritable
  · exact .inl ((h.unkeyed_iff hread hkey).2 hnone)
  · obtain ⟨i, part, value, hi, -, hlast⟩ := h.exists_lastKeyed hread hkey hfind hwritten
    obtain ⟨c, hc, hkeyed⟩ := hlast.keyed
    exact .inr ⟨i, part, value, hlast, h.oneLine hread hkey hi hc hkeyed hline⟩

end

section

variable {t t' : Text} {rows rows' : List Row} {rest rest' : List (List Node)}
  {props props' : List (Property Expr)} {edits : List PropertyEdit}
  (hread : readRows property? 1 rows = some props) (h' : ObjectLayout t' rows' rest')
  (hread' : readRows property? 1 rows' = some props') (hkeys : ∀ e ∈ edits, IsKey e.key)

include h' hread'

/-- A core that has been written is read as its key with its number. -/
theorem Written.property {e : PropertyEdit} (hkey : IsKey e.key) {i : Nat} {c : List Node}
    (hc : (rows'.map Row.core)[i]? = some c) (hwritten : Written e c) :
    ∃ q span, props'[i]? = some q ∧ q.key = some e.key ∧ q.value = .number span ∧
      t'.slice span = e.value := by
  rw [List.getElem?_map] at hc
  obtain ⟨r, hr, rfl⟩ := Option.map_eq_some_iff.1 hc
  obtain ⟨q, front, back, hq, htext, hproperty⟩ := h'.property hread' hr
  obtain ⟨span, hvalue, hslice⟩ := written_value hproperty htext hkey hwritten
  exact ⟨q, span, hq, written_property hproperty hkey hwritten, hvalue, hslice⟩

namespace Run

variable {added : List PropertyEdit}
  (hrun : Run edits added (rows.map Row.core) (rows'.map Row.core))

include hread hrun

omit h' in
theorem length_props : props'.length = props.length + added.length := by
  obtain ⟨init, hlength, hcores⟩ := hrun.added
  have := congrArg List.length hcores
  rw [List.length_append, hlength] at this
  simpa [length_readRows hread, length_readRows hread'] using this

include hkeys

/-- A property keeps its place and its key, and its text as well if its value is not exchanged. -/
theorem kept_property (h : ObjectLayout t rows rest) {i : Nat} {p : Property Expr}
    (hp : props[i]? = some p) :
    ∃ q, props'[i]? = some q ∧ q.key = p.key ∧ (t'.slice q.span = t.slice p.span ∨
      ∃ e ∈ edits, ∃ part value, LastKeyed e.key (rows.map Row.core) i part value) := by
  obtain ⟨r, front, back, hr, htext, hproperty⟩ := h.row hread hp
  have hc : (rows.map Row.core)[i]? = some r.core := by rw [List.getElem?_map, hr]; rfl
  obtain hkept | ⟨e, he, part, value, hlast, hset⟩ := hrun.kept i r.core hc
  · rw [List.getElem?_map] at hkept
    obtain ⟨r', hr', hcore⟩ := Option.map_eq_some_iff.1 hkept
    obtain ⟨q, front', back', hq, htext', hproperty'⟩ := h'.property hread' hr'
    refine ⟨q, hq, ?_, .inl ?_⟩
    · rw [hcore] at hproperty'
      exact key_of_core hproperty' hproperty
    · rw [slice_property hproperty' htext' r'.solid, slice_property hproperty htext r.solid, hcore]
  · obtain ⟨c, hc', hkeyed⟩ := hlast.keyed
    rw [hc, Option.some.injEq] at hc'
    subst hc'
    obtain ⟨q, -, hq, hqkey, -, -⟩ :=
      Written.property h' hread' (hkeys e he) hset ⟨part, hkeyed.part, rfl⟩
    rw [(keyed_property hproperty (hkeys e he) hkeyed).1]
    exact ⟨q, hq, hqkey, .inr ⟨e, he, part, value, hlast⟩⟩

/-- The added properties stand behind the others, in the order in which they were written. -/
theorem added_property (hsub : added ⊆ edits) {m : Nat} {e : PropertyEdit}
    (he : added[m]? = some e) :
    ∃ q span, props'[props.length + m]? = some q ∧ q.key = some e.key ∧ q.value = .number span ∧
      t'.slice span = e.value ∧ t'.slice q.span = e.text := by
  obtain ⟨init, hlength, hcores⟩ := hrun.added
  have hc : (rows'.map Row.core)[props.length + m]? = some (propertyNodes e.key e.value) := by
    rw [length_readRows hread, ← List.length_map Row.core, ← hlength, hcores,
      List.getElem?_append_right (Nat.le_add_right _ _), Nat.add_sub_cancel_left, List.getElem?_map, he]
    rfl
  have hkey := hkeys e (hsub (List.mem_of_getElem? he))
  obtain ⟨q, span, hq, hqkey, hvalue, hslice⟩ :=
    Written.property h' hread' hkey hc (written_propertyNodes e)
  refine ⟨q, span, hq, hqkey, hvalue, hslice, ?_⟩
  rw [List.getElem?_map] at hc
  obtain ⟨r, hr, hcore⟩ := Option.map_eq_some_iff.1 hc
  obtain ⟨q', front, back, hq', htext, hproperty⟩ := h'.property hread' hr
  rw [hq, Option.some.injEq] at hq'
  subst hq'
  rw [slice_property hproperty htext r.solid, hcore, textOf_propertyNodes]

end Run

end

theorem getElem?_lt_or {α : Type} {l l' : List α} {n : Nat} {a : α} (hlength : l'.length = l.length + n)
    {j : Nat} (h : l'[j]? = some a) :
    (∃ b, l[j]? = some b) ∨ ∃ m, j = l.length + m ∧ m < n := by
  have hj := (List.getElem?_eq_some_iff.1 h).1
  by_cases hlt : j < l.length
  · exact .inl ⟨l[j], List.getElem?_eq_getElem hlt⟩
  · exact .inr ⟨j - l.length, by omega, by omega⟩

/-- What has become of the properties of an object: those that were there keep their keys and their
order, and their texts as well unless their values are exchanged; the last property with the key of
an edit is its number; and the properties that are added are those that were written nowhere. -/
structure Rewritten (t t' : Text) (props kept added : List (Property Expr))
    (edits : List PropertyEdit) : Prop where
  keys : kept.map Property.key = props.map Property.key
  texts : ∀ (i : Nat) (p : Property Expr), props[i]? = some p →
    (∀ e ∈ edits, Property.find? props e.key = some p → isWritten e.key (t.slice p.span) = false) →
    ∃ q : Property Expr, kept[i]? = some q ∧ t'.slice q.span = t.slice p.span
  values : ∀ e ∈ edits, ∃ (q : Property Expr) (span : Span),
    Property.find? (kept ++ added) e.key = some q ∧ q.value = .number span ∧ t'.slice span = e.value
  added : added.map (fun q => (q.key, t'.slice q.span)) =
    (edits.filter (isAdded t props)).map fun e => (some e.key, e.text)

section

variable {t t' : Text} {rows rows' : List Row} {rest rest' : List (List Node)}
  {props props' : List (Property Expr)} {edits : List PropertyEdit} (h : PlainLayout t rows rest)
  (hread : readRows property? 1 rows = some props) (h' : ObjectLayout t' rows' rest')
  (hread' : readRows property? 1 rows' = some props') (hkeys : ∀ e ∈ edits, IsKey e.key)
  (hrun : Run edits (edits.filter (isAdded t props)) (rows.map Row.core) (rows'.map Row.core))

include h hread h' hread' hkeys hrun

theorem Run.keys : (props'.take props.length).map Property.key = props.map Property.key := by
  have hlength := hrun.length_props hread hread'
  apply List.ext_getElem?
  intro i
  rw [List.getElem?_map, List.getElem?_map]
  cases hp : props[i]? with
  | none =>
      have hi := List.getElem?_eq_none_iff.1 hp
      rw [List.getElem?_eq_none (by rw [List.length_take]; omega), Option.map_none]
  | some p =>
      obtain ⟨q, hq, hkey, -⟩ := hrun.kept_property hread h' hread' hkeys h.toObjectLayout hp
      rw [List.getElem?_take_of_lt (List.getElem?_eq_some_iff.1 hp).1, hq, Option.map_some, hkey,
        Option.map_some]

omit h in
theorem Run.texts_added : (props'.drop props.length).map (fun q => (q.key, t'.slice q.span)) =
    (edits.filter (isAdded t props)).map fun e => (some e.key, e.text) := by
  have hlength := hrun.length_props hread hread'
  apply List.ext_getElem?
  intro m
  rw [List.getElem?_map, List.getElem?_map, List.getElem?_drop]
  cases he : (edits.filter (isAdded t props))[m]? with
  | none =>
      have hm := List.getElem?_eq_none_iff.1 he
      rw [List.getElem?_eq_none (by omega)]
      rfl
  | some e =>
      obtain ⟨q, -, hq, hkey, -, -, htext⟩ :=
        hrun.added_property hread h' hread' hkeys (List.filter_subset_self _) he
      rw [hq, Option.map_some, Option.map_some, hkey, htext]

variable (hwritable : ∀ e ∈ edits, Writable t props e.key)

include hwritable

theorem Run.texts_kept {i : Nat} {p : Property Expr} (hp : props[i]? = some p)
    (hother : ∀ e ∈ edits, Property.find? props e.key = some p →
      isWritten e.key (t.slice p.span) = false) :
    ∃ q, (props'.take props.length)[i]? = some q ∧ t'.slice q.span = t.slice p.span := by
  obtain ⟨q, hq, -, htext | ⟨e, he, part, value, hlast⟩⟩ :=
    hrun.kept_property hread h' hread' hkeys h.toObjectLayout hp
  · refine ⟨q, ?_, htext⟩
    rw [List.getElem?_take_of_lt (List.getElem?_eq_some_iff.1 hp).1, hq]
  · have hkey := hkeys e he
    obtain hnone | ⟨p', hfind, hwritten, -⟩ := hwritable e he
    · exact absurd ((h.unkeyed_iff hread hkey).2 hnone) hlast.not_unkeyed
    · -- The row of this property is the last that is written with the key, so it is the exchanged one.
      obtain ⟨j, part', value', hj, -, hlast'⟩ := h.exists_lastKeyed hread hkey hfind hwritten
      obtain rfl := hlast.index_eq hlast'
      rw [hp, Option.some.injEq] at hj
      subst hj
      rw [hother e he hfind] at hwritten
      cases hwritten

theorem Run.values (hdistinct : edits.Pairwise fun d e => d.key ≠ e.key) {e : PropertyEdit}
    (he : e ∈ edits) :
    ∃ q span, Property.find? props' e.key = some q ∧ q.value = .number span ∧
      t'.slice span = e.value := by
  have hkey := hkeys e he
  have hlength := hrun.length_props hread hread'
  have hadded {m : Nat} {d : PropertyEdit} (hd : (edits.filter (isAdded t props))[m]? = some d) :=
    hrun.added_property hread h' hread' hkeys (List.filter_subset_self _) hd
  by_cases hnew : isAdded t props e = true
  · obtain ⟨m, hm⟩ := List.getElem?_of_mem (List.mem_filter.2 ⟨he, hnew⟩)
    obtain ⟨q, span, hq, hqkey, hvalue, hslice, -⟩ := hadded hm
    refine ⟨q, span, find?_eq_some.2 ⟨_, hq, hqkey, ?_⟩, hvalue, hslice⟩
    intro j q' hj hq' hqkey'
    obtain ⟨p, hp⟩ | ⟨n, rfl, hn⟩ := getElem?_lt_or hlength hq'
    · have := (List.getElem?_eq_some_iff.1 hp).1
      omega
    · obtain ⟨q'', -, hq'', hqkey'', -⟩ := hadded (List.getElem?_eq_getElem hn)
      rw [hq', Option.some.injEq] at hq''
      subst hq''
      rw [hqkey'', Option.some.injEq] at hqkey'
      obtain ⟨hm', rfl⟩ := List.getElem?_eq_some_iff.1 hm
      have hpair := hdistinct.filter (isAdded t props)
      exact List.pairwise_iff_getElem.1 hpair m n hm' hn (by omega) hqkey'.symm
  · obtain hnone | ⟨p, hfind, hwritten, -⟩ := hwritable e he
    · exact absurd (isAdded_iff.2 hnone) hnew
    · obtain ⟨i, part, value, hi, hlater, hlast⟩ := h.exists_lastKeyed hread hkey hfind hwritten
      obtain ⟨c, hc, hc'⟩ := hrun.set e he i part value hlast
      obtain ⟨q, span, hq, hqkey, hvalue, hslice⟩ := Written.property h' hread' hkey hc hc'
      refine ⟨q, span, find?_eq_some.2 ⟨i, hq, hqkey, ?_⟩, hvalue, hslice⟩
      intro j q' hj hq' hqkey'
      obtain ⟨p', hp'⟩ | ⟨n, rfl, hn⟩ := getElem?_lt_or hlength hq'
      · obtain ⟨q'', hq'', hqkey'', -⟩ :=
          hrun.kept_property hread h' hread' hkeys h.toObjectLayout hp'
        rw [hq', Option.some.injEq] at hq''
        subst hq''
        exact hlater j p' hj hp' (hqkey''.symm.trans hqkey')
      · have hd := List.getElem?_eq_getElem hn
        obtain ⟨q'', -, hq'', hqkey'', -⟩ := hadded hd
        rw [hq', Option.some.injEq] at hq''
        subst hq''
        rw [hqkey'', Option.some.injEq] at hqkey'
        have hadd := (List.mem_filter.1 (List.mem_of_getElem? hd)).2
        rw [isAdded, hqkey'] at hadd
        exact hnew hadd

end

/-- Numbers written into an object without comments give an object again. -/
theorem writeAll_object {t : Text} {props : List (Property Expr)} {edits : List PropertyEdit}
    (hobject : arguments? t = some [.object props ⟨0, t.width⟩])
    (hcomment : ∀ l ∈ (scan t).1, l.kind ≠ .trivia .lineComment ∧ l.kind ≠ .trivia .blockComment)
    (hspace : ∀ c ∈ t, isSkipped c = true → c = ' ' ∨ c = '\t' ∨ c = '\n')
    (hdistinct : edits.Pairwise fun d e => d.key ≠ e.key)
    (hkeys : ∀ e ∈ edits, IsKey e.key) (hvalues : ∀ e ∈ edits, IsDigits e.value)
    (hwritable : ∀ e ∈ edits, Writable t props e.key) :
    ∃ kept added,
      arguments? (writeAll true t edits) =
        some [.object (kept ++ added) ⟨0, (writeAll true t edits).width⟩] ∧
      Rewritten t (writeAll true t edits) props kept added edits := by
  obtain ⟨rows, rest, hlayout, hread⟩ := arguments?_object.1 hobject
  have h := hlayout.plain hcomment hspace
  have hready : ∀ e ∈ edits, Ready e.key (rows.map Row.core) :=
    fun e he => h.ready hread (hkeys e he) (hwritable e he)
  have hnew : ∀ e ∈ edits, isAdded t props e = true ↔ Unkeyed e.key (rows.map Row.core) :=
    fun e he => isAdded_iff.trans (h.unkeyed_iff hread (hkeys e he)).symm
  obtain ⟨rows', rest', hplain', hrun⟩ := h.writeAll_run hdistinct hkeys hvalues hready _ hnew
  have h' := hplain'.toObjectLayout
  obtain ⟨props', hread'⟩ := (isSome_property?_rows 1 rows').2 h'.reads
  refine ⟨props'.take props.length, props'.drop props.length, ?_, ?_, ?_, ?_, ?_⟩
  · rw [List.take_append_drop]
    exact arguments?_object.2 ⟨rows', rest', h', hread'⟩
  · exact hrun.keys h hread h' hread' hkeys
  · intro i p hp hother
    exact hrun.texts_kept h hread h' hread' hkeys hwritable hp hother
  · intro e he
    rw [List.take_append_drop]
    exact hrun.values h hread h' hread' hkeys hwritable hdistinct he
  · exact hrun.texts_added hread h' hread' hkeys

theorem writeAll_object_quoted :
    arguments? "\x7b 'a': 1 \x7d".toList =
      some [.object [⟨some ['a'], ⟨2, 8⟩, .number ⟨7, 8⟩⟩] ⟨0, 10⟩] ∧
    writeAll true "\x7b 'a': 1 \x7d".toList [⟨['a'], ['2', '0']⟩, ⟨['b'], ['3']⟩] =
      "\x7b 'a': 20, b: 3 \x7d".toList ∧
    ∃ kept added, arguments? "\x7b 'a': 20, b: 3 \x7d".toList =
        some [.object (kept ++ added) ⟨0, 17⟩] ∧
      Rewritten "\x7b 'a': 1 \x7d".toList "\x7b 'a': 20, b: 3 \x7d".toList
        [⟨some ['a'], ⟨2, 8⟩, .number ⟨7, 8⟩⟩] kept added
        [⟨['a'], ['2', '0']⟩, ⟨['b'], ['3']⟩] := by
  have hobject : arguments? "\x7b 'a': 1 \x7d".toList =
      some [.object [⟨some ['a'], ⟨2, 8⟩, .number ⟨7, 8⟩⟩] ⟨0, 10⟩] := by cbv
  have hwrite : writeAll true "\x7b 'a': 1 \x7d".toList [⟨['a'], ['2', '0']⟩, ⟨['b'], ['3']⟩] =
      "\x7b 'a': 20, b: 3 \x7d".toList := by cbv
  refine ⟨hobject, hwrite, ?_⟩
  rw [← hwrite]
  have hcommentless : ∀ l ∈ (scan "\x7b 'a': 1 \x7d".toList).1,
      l.kind ≠ .trivia .lineComment ∧ l.kind ≠ .trivia .blockComment := by decide +kernel
  have hspace : ∀ c ∈ "\x7b 'a': 1 \x7d".toList, isSkipped c = true → c = ' ' ∨ c = '\t' ∨ c = '\n' := by
    have hall : ("\x7b 'a': 1 \x7d".toList.all fun c => !isSkipped c || c == ' ') = true := by decide +kernel
    intro c hc hskipped
    exact .inl (by simpa [hskipped] using List.all_eq_true.1 hall c hc)
  refine writeAll_object hobject hcommentless hspace (by decide) ?_ ?_ ?_
  · rw [List.forall_mem_cons, List.forall_mem_singleton]
    exact ⟨⟨⟨'a', [], rfl, by decide⟩, List.all_eq_true.1 (by decide)⟩,
      ⟨'b', [], rfl, by decide⟩, List.all_eq_true.1 (by decide)⟩
  · rw [List.forall_mem_cons, List.forall_mem_singleton]
    exact ⟨⟨by decide, List.all_eq_true.1 (by decide)⟩, by decide, List.all_eq_true.1 (by decide)⟩
  · rw [List.forall_mem_cons, List.forall_mem_singleton]
    exact ⟨.inr ⟨_, by rfl, by decide +kernel, by decide +kernel⟩, .inl (by decide +kernel)⟩

end ObjectText
end PugSize
