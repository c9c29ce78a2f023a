import PugSize.Proofs.Edit.SeenComma
import PugSize.Proofs.Edit.SeenProperty
import PugSize.Proofs.Edit.WholeValue

/-!
Objects that properties can be written into although there are comments in them. Comments may stand anywhere
but where they hide a comma or cut a value that is exchanged; each property that is written then makes up one
step on the rows.
-/

namespace PugSize

open Script CharClass

namespace ObjectText

theorem KeyPart.no_group {key : Text} {part : List Node} (h : KeyPart key part) {shape : Bracket}
    {inside : List Node} : .group shape inside ∉ part := by
  obtain ⟨plain, -, hgap, hgap'⟩ := h
  intro hmem
  simp only [List.mem_append, List.mem_cons, List.cons_append] at hmem
  obtain hmem | hmem | hmem | hmem := hmem
  · cases hmem
  · have := hgap _ hmem
    cases this
  · cases hmem
  · have := hgap' _ hmem
    cases this

/-- The groups of a new value stood in the old one, behind what was found of that. -/
theorem Whole.rewritten {key : Text} {part value : List Node} (h : Whole value) (hpart : KeyPart key part)
    {r' : Row} {body more : List Node} {new : Text} (hcore : r'.core = part ++ .number new :: more)
    (hmore : Remains value body more) {key' : Text} {part' value' : List Node}
    (hwrites' : Writes key' r' part' value') : Whole value' := by
  intro shape inside hgroup
  have hgroup : Node.group shape inside ∈ part ++ .number new :: more := by
    rw [← hcore, hwrites'.core]
    exact List.mem_append_right _ hgroup
  obtain hgroup | hgroup := List.mem_append.1 hgroup
  · exact absurd hgroup hpart.no_group
  · have hmem := (List.mem_cons.1 hgroup).resolve_left nofun
    apply h shape inside
    rw [hmore.eq (List.ne_nil_of_mem hmem)]
    exact List.mem_append_right _ hmem

/-- Whether properties can be written into an object under some keys: where one has to be added, a comma
behind the last property is seen, and where values are exchanged, no comment stands inside the brackets of
the value of the last property that is seen under a key. -/
structure Clear (overwrite : Bool) (keys : List Text) (t : Text) : Prop where
  comma : (∃ key ∈ keys, valueSpan? t key = none) → SeesComma t
  values : overwrite = true → ∀ props, arguments? t = some [.object props ⟨0, t.width⟩] →
    ∀ key ∈ keys, ∀ i p, LastSeen t key props i p → commentInside 0 (scan (t.slice p.value.span)).1 = false

/-- Whether the last property that is seen under a key is read under it. -/
def IsRead (t key : Text) : Prop :=
  ∃ props i p, arguments? t = some [.object props ⟨0, t.width⟩] ∧ LastSeen t key props i p ∧ p.key = some key

/-- Whether a row is written with a key, and the rows behind it are passed over. -/
structure Held (key : Text) (rows : List Row) : Prop where
  label : IsLabel key
  row : ∃ i r part value, rows[i]? = some r ∧ Writes key r part value ∧
    ∀ (j : Nat) (s : Row), i < j → rows[j]? = some s → Unseen key s

/-- The layout of an object into which properties can be written under some keys. A key that has
to be written in quotes cannot be added, so there is a row for it. -/
structure ClearLayout (overwrite : Bool) (keys : List Text) (t : Text) (rows : List Row)
    (rest : List (List Node)) : Prop extends ObjectLayout t rows rest where
  rows_ne_nil : rows ≠ []
  named : ∀ key ∈ keys, IsBare key ∨ Held key rows
  shown : (∃ key ∈ keys, ∀ r ∈ rows, ∀ part value, ¬ Writes key r part value) →
    ∀ blank, rest = [blank] → Shown blank
  whole : overwrite = true → ∀ key ∈ keys, ∀ i r part value, LastWrites key rows i r part value → Whole value

/-- A comma that the patcher sees is shown wherever a row has to be added. -/
theorem ObjectLayout.shown {keys : List Text} {t : Text} {rows : List Row} {rest : List (List Node)}
    (h : ObjectLayout t rows rest) (hrows : rows ≠ []) (hkeys : ∀ key ∈ keys, IsBare key ∨ Held key rows)
    (hcomma : (∃ key ∈ keys, valueSpan? t key = none) → SeesComma t)
    (hnone : ∃ key ∈ keys, ∀ r ∈ rows, ∀ part value, ¬ Writes key r part value) :
    ∀ blank, rest = [blank] → Shown blank := by
  rintro blank rfl
  obtain ⟨key, hmem, hnone⟩ := hnone
  obtain hnil | ⟨blank', heq, hblank⟩ := h.tail
  · cases hnil
  · cases heq
    obtain hkey | ⟨-, i, r, part, value, hr, hwrites, -⟩ := hkeys key hmem
    · have hsees := hcomma ⟨key, hmem, h.valueSpan?_unwritten hkey hnone⟩
      rw [h.text] at hsees
      exact shown_of_seesComma hrows hblank h.legible hsees
    · exact absurd hwrites (hnone r (List.mem_of_getElem? hr) part value)

theorem ObjectLayout.clear {overwrite : Bool} {keys : List Text} {t : Text} {rows : List Row}
    {rest : List (List Node)} (h : ObjectLayout t rows rest) (hrows : rows ≠ [])
    (hkeys : ∀ key ∈ keys, IsKey key) (hclear : Clear overwrite keys t) :
    ClearLayout overwrite keys t rows rest := by
  have hkeys' : ∀ key ∈ keys, IsBare key ∨ Held key rows := fun key hkey => .inl (hkeys key hkey).bare
  refine ⟨h, hrows, hkeys', h.shown hrows hkeys' hclear.comma, ?_⟩
  intro hoverwrite key hkey i r part value hlast
  obtain ⟨props, hread⟩ := (isSome_property?_rows 1 rows).2 h.reads
  obtain ⟨p, hseen⟩ := h.lastSeen_of_lastWrites hread (hkeys key hkey) hlast
  have hinside := hclear.values hoverwrite props (arguments?_object.2 ⟨rows, rest, h, hread⟩) key hkey i p hseen
  obtain ⟨s, front, back, hs, htext, hproperty⟩ := h.row hread hseen.place
  obtain rfl : r = s := Option.some.inj (hlast.place.symm.trans hs)
  obtain ⟨as, bs, rfl⟩ := List.append_of_mem (List.mem_of_getElem? hlast.place)
  have hlegible := h.legible
  rw [rowNodes_core] at hlegible
  simp only [lexemesOf_append, legible_append] at hlegible
  obtain ⟨⟨-, hcore⟩, -⟩ := hlegible
  exact hlast.writes.toKeyed.whole (hkeys key hkey) r.solid hcore hproperty htext hinside

/-- Whether properties can be written into an object under some keys, whatever its layout. -/
def ClearInRows (overwrite : Bool) (keys : List Text) (t : Text) : Prop :=
  ∀ rows rest, ObjectLayout t rows rest → rows ≠ [] → ClearLayout overwrite keys t rows rest

theorem Clear.inRows {overwrite : Bool} {keys : List Text} {t : Text} (h : Clear overwrite keys t)
    (hkeys : ∀ key ∈ keys, IsKey key) : ClearInRows overwrite keys t :=
  fun _ _ hlayout hrows => hlayout.clear hrows hkeys h

theorem Uncommented.group {ns : List Node} (h : Uncommented ns) {shape : Bracket} {inside : List Node}
    (hmem : .group shape inside ∈ ns) : Uncommented inside := by
  obtain ⟨as, bs, rfl⟩ := List.append_of_mem hmem
  intro l hl
  exact h l (by simp [Node.lexemes, hl])

/-- The row of the last property that is seen under a key is written with it, if the property is read under it. -/
theorem ObjectLayout.held {key t : Text} {rows : List Row} {rest : List (List Node)} (h : ObjectLayout t rows rest)
    (hkey : IsLabel key) (hfound : IsRead t key) : Held key rows := by
  obtain ⟨props, i, p, hobject, ⟨hp, hseen, hlater⟩, hpkey⟩ := hfound
  obtain ⟨props', hread⟩ := (isSome_property?_rows 1 rows).2 h.reads
  have hobject' := arguments?_object.2 ⟨rows, rest, h, hread⟩
  rw [hobject] at hobject'
  cases hobject'
  obtain ⟨r, front, back, hr, htext, hproperty⟩ := h.row hread hp
  have hunseen := (not_congr (h.not_isSeen_iff hread hp hr)).1 (not_not_intro hseen)
  rw [h.unseen_iff (List.mem_of_getElem? hr) (.inr ⟨hkey, readAs_of_key hproperty r.solid hpkey⟩)] at hunseen
  simp only [not_forall, not_not] at hunseen
  obtain ⟨part, value, hwrites⟩ := hunseen
  refine ⟨hkey, i, r, part, value, hr, hwrites, fun j s hj hs => ?_⟩
  obtain ⟨q, -, -, hq, -, -⟩ := h.property hread hs
  exact (h.not_isSeen_iff hread hq hs).1 (hlater j q hj hq)

/-- In an object without comments no value is cut. -/
theorem clearInRows_of_comments {overwrite : Bool} {keys : List Text} {t : Text}
    (hkeys : ∀ key ∈ keys, IsBare key ∨ IsLabel key ∧ IsRead t key)
    (hnone : comments t = []) (hcomma : (∃ key ∈ keys, valueSpan? t key = none) → SeesComma t) :
    ClearInRows overwrite keys t := by
  intro rows rest hlayout hrows
  have hkeys' : ∀ key ∈ keys, IsBare key ∨ Held key rows :=
    fun key hkey => (hkeys key hkey).imp_right fun hread => hlayout.held hread.1 hread.2
  refine ⟨hlayout, hrows, hkeys', hlayout.shown hrows hkeys' hcomma, ?_⟩
  have huncommented := hlayout.uncommented_of_comments hnone
  intro _ key _ i r part value hlast shape inside hmem x hx
  obtain ⟨as, bs, rfl⟩ := List.append_of_mem (List.mem_of_getElem? hlast.place)
  rw [hlast.writes.rowNodes_eq] at huncommented
  have hgroup := @Uncommented.group _ huncommented shape inside (by simp [hmem])
  exact hgroup.not_comment hx

/-- A property written into rows. It is added behind them where none is written with its key; else the
last one that is keeps its value, or what the patcher has found of that is exchanged. -/
inductive RowStep (overwrite : Bool) (e : PropertyEdit) : List Row → List Row → Prop
  | add {rows rows' : List Row} {new : Row} (hnone : ∀ r ∈ rows, ∀ part value, ¬ Writes e.key r part value)
      (hcore : rows'.map Row.core = rows.map Row.core) (hlead : rows'.map Row.lead = rows.map Row.lead)
      (hnew : new.core = propertyNodes e.key e.value) : RowStep overwrite e rows (rows' ++ [new])
  | keep {as : List Row} {r : Row} {bs : List Row} {part value : List Node}
      {after : Text} (hlegible : Legible (lexemesOf (value ++ r.trail)) after)
      (hwrites : Writes e.key r part value) (hnone : ∀ b ∈ bs, ∀ part value, ¬ Writes e.key b part value)
      (hkeep : overwrite = false) (hfound : isVacant (passed (value ++ r.trail)) = false) :
      RowStep overwrite e (as ++ r :: bs) (as ++ r :: bs)
  | set {as : List Row} {r : Row} {bs : List Row} {part value body more : List Node} {r' : Row}
      {after : Text} (hlegible : Legible (lexemesOf (value ++ r.trail)) after)
      (hwrites : Writes e.key r part value) (hnone : ∀ b ∈ bs, ∀ part value, ¬ Writes e.key b part value)
      (hlead : r'.lead = r.lead) (hcore : r'.core = part ++ .number e.value :: more)
      (hmore : Remains value body more) (hmarks : ∀ x ∈ marksOf 1 body, endsValue x = false)
      (hfound : overwrite = true ∨ isVacant (textOf body) = true ∧
        isVacant (passed (value ++ r.trail)) = true) :
      RowStep overwrite e (as ++ r :: bs) (as ++ r' :: bs)

/-- Properties written into rows one after the other. -/
inductive RowRun (overwrite : Bool) : List PropertyEdit → List Row → List Row → Prop
  | nil (rows : List Row) : RowRun overwrite [] rows rows
  | cons {e : PropertyEdit} {edits : List PropertyEdit} {rows rows₁ rows' : List Row}
      (hstep : RowStep overwrite e rows rows₁) (hrun : RowRun overwrite edits rows₁ rows') :
      RowRun overwrite (e :: edits) rows rows'

theorem Unseen.not_writes {key : Text} {r : Row} (h : Unseen key r) (part value : List Node) :
    ¬ Writes key r part value := by
  intro hwrites
  have hwritten := h hwrites.lead
  rw [hwrites.isWritten] at hwritten
  cases hwritten

/-- A row that is written with a key is passed over under any other. -/
theorem Keyed.unseen {key key' : Text} {r : Row} {part value : List Node} (h : Keyed key r.core part value)
    (hkey : IsLabel key) (hkey' : IsLabel key') (hne : key' ≠ key) : Unseen key' r := by
  intro _
  rw [Bool.eq_false_iff]
  exact fun hwritten => hne (isWritten_unique hkey' hkey hwritten h.isWritten)

namespace Held

variable {key : Text} {e : PropertyEdit}

/-- A row that is added for another key leaves the row for a key the last. -/
theorem added {rows rows' : List Row} {new : Row} (h : Held key rows) (hkey : IsLabel e.key) (hne : key ≠ e.key)
    (hcore : rows'.map Row.core = rows.map Row.core) (hlead : rows'.map Row.lead = rows.map Row.lead)
    (hnew : new.core = propertyNodes e.key e.value) : Held key (rows' ++ [new]) := by
  obtain ⟨hlabel, i, r, part, value, hr, hwrites, hlater⟩ := h
  obtain ⟨s, hs, hcore', hlead'⟩ := exists_same_row hcore.symm hlead.symm hr
  refine ⟨hlabel, i, s, part, value, ?_, hwrites.congr hcore' hlead', fun j b hj hb => ?_⟩
  · rw [List.getElem?_append_left (List.getElem?_eq_some_iff.1 hs).1, hs]
  · by_cases hj' : j < rows'.length
    · rw [List.getElem?_append_left hj'] at hb
      obtain ⟨b', hb', hcoreB, hleadB⟩ := exists_same_row hcore hlead hb
      have hunseen := hlater j b' hj hb'
      rwa [Unseen, hcoreB, hleadB] at hunseen
    · rw [List.getElem?_append_right (by omega), List.getElem?_singleton] at hb
      split at hb
      · obtain rfl := Option.some.inj hb
        exact ((keyPart_fresh e.key).keyed hnew).unseen hkey hlabel hne
      · cases hb

/-- A row that is exchanged for one with a number for its value keeps its key. -/
theorem exchanged {as : List Row} {r r' : Row} {bs : List Row} (h : Held key (as ++ r :: bs))
    {part value more : List Node} (hkey : IsLabel e.key) (hwrites : Writes e.key r part value)
    (hunseen : ∀ b ∈ bs, Unseen e.key b) (hlead : r'.lead = r.lead)
    (hcore : r'.core = part ++ .number e.value :: more) :
    Held key (as ++ r' :: bs) := by
  have hwrites' := hwrites.renewed hcore hlead
  by_cases hne : key = e.key
  · subst hne
    exact ⟨hkey, as.length, r', part, _, getElem?_middle as r' bs, hwrites',
      fun j b hj hb => hunseen b (getElem?_behind hj hb)⟩
  · obtain ⟨hlabel, i, s, part', value', hs, hs', hlater⟩ := h
    have hi : as.length ≠ i := by
      rintro rfl
      rw [getElem?_middle, Option.some.injEq] at hs
      subst hs
      exact hne (hs'.toKeyed.key_eq hwrites.toKeyed)
    refine ⟨hlabel, i, s, part', value', by rw [getElem?_other r r' hi]; exact hs, hs', fun j b hj hb => ?_⟩
    by_cases hj' : as.length = j
    · subst hj'
      rw [getElem?_middle, Option.some.injEq] at hb
      subst hb
      exact hwrites'.toKeyed.unseen hkey hlabel hne
    · rw [getElem?_other r r' hj'] at hb
      exact hlater j b hj hb

end Held

namespace ClearLayout

variable {overwrite : Bool} {keys : List Text} {t t' : Text} {rest : List (List Node)} {e : PropertyEdit}

/-- A row that is added for a key hides no comma and holds no brackets. -/
theorem added {rows rows' : List Row} {new : Row} (h : ClearLayout overwrite keys t rows rest)
    (hkey : IsLabel e.key) (hnone : ∀ r ∈ rows, ∀ part value, ¬ Writes e.key r part value)
    (hcore : rows'.map Row.core = rows.map Row.core) (hlead : rows'.map Row.lead = rows.map Row.lead)
    (hnew : new.core = propertyNodes e.key e.value) (hlayout : ObjectLayout t' (rows' ++ [new]) []) :
    ClearLayout overwrite keys t' (rows' ++ [new]) [] := by
  refine ⟨hlayout, by simp, fun key hmem => (h.named key hmem).imp_right fun hheld => ?_, nofun,
    fun hoverwrite key hmem i r part value hlast => ?_⟩
  · refine hheld.added hkey ?_ hcore hlead hnew
    rintro rfl
    obtain ⟨-, i, r, part, value, hr, hwrites, -⟩ := hheld
    exact hnone r (List.mem_of_getElem? hr) part value hwrites
  have hlength := congrArg List.length hcore
  rw [List.length_map, List.length_map] at hlength
  by_cases hi : i < rows'.length
  · have hr := hlast.place
    rw [List.getElem?_append_left hi] at hr
    obtain ⟨s, hs, hcore', hlead'⟩ := exists_same_row hcore hlead hr
    refine h.whole hoverwrite key hmem i s part value ⟨hs, hlast.writes.congr hcore' hlead', ?_⟩
    intro j b hj hb part' value' hwrites
    obtain ⟨b', hb', hcoreB, hleadB⟩ := exists_same_row hcore.symm hlead.symm hb
    refine hlast.later j b' hj ?_ part' value' (hwrites.congr hcoreB hleadB)
    rw [List.getElem?_append_left (List.getElem?_eq_some_iff.1 hb').1, hb']
  · have hr := hlast.place
    rw [List.getElem?_append_right (by omega), List.getElem?_singleton] at hr
    split at hr
    · obtain rfl := Option.some.inj hr
      intro shape inside hgroup
      have hgroup : Node.group shape inside ∈ propertyNodes e.key e.value := by
        rw [← hnew, hlast.writes.core]
        exact List.mem_append_right _ hgroup
      simp [propertyNodes, nameNode, colonNode, Node.space, Node.number] at hgroup
    · cases hr

/-- A row that is exchanged for one with a number for its value is written with the same keys, and holds no
brackets that the old one did not hold. -/
theorem exchanged {as : List Row} {r r' : Row} {bs : List Row} (h : ClearLayout overwrite keys t (as ++ r :: bs) rest)
    {part value body more : List Node} (hmem : e.key ∈ keys) (hkey : IsLabel e.key)
    (hwrites : Writes e.key r part value) (hunseen : ∀ b ∈ bs, Unseen e.key b) (hlead : r'.lead = r.lead)
    (hcore : r'.core = part ++ .number e.value :: more) (hmore : Remains value body more)
    (hlayout : ObjectLayout t' (as ++ r' :: bs) rest) : ClearLayout overwrite keys t' (as ++ r' :: bs) rest := by
  refine ⟨hlayout, by simp, fun key hkeyMem => (h.named key hkeyMem).imp_right fun hheld =>
    hheld.exchanged hkey hwrites hunseen hlead hcore, ?_, ?_⟩
  · rintro ⟨key, hkeyMem, hunwritten⟩
    refine h.shown ⟨key, hkeyMem, fun s hs part' value' hwrites' => ?_⟩
    simp only [List.mem_append, List.mem_cons] at hs
    obtain hs | rfl | hs := hs
    · exact hunwritten s (by simp [hs]) part' value' hwrites'
    · obtain rfl := hwrites.toKeyed.key_eq hwrites'.toKeyed
      exact hunwritten r' (by simp) part _ (hwrites.renewed hcore hlead)
    · exact hunwritten s (by simp [hs]) part' value' hwrites'
  · intro hoverwrite key hkeyMem i s part' value' ⟨hs, hwrites', hlater⟩
    by_cases hi : as.length = i
    · subst hi
      rw [getElem?_middle, Option.some.injEq] at hs
      subst hs
      have hlast : LastWrites e.key (as ++ r :: bs) as.length r part value :=
        ⟨getElem?_middle as r bs, hwrites, fun j b hj hb => (hunseen b (getElem?_behind hj hb)).not_writes⟩
      exact (h.whole hoverwrite e.key hmem _ r part value hlast).rewritten hwrites.part hcore hmore hwrites'
    · rw [getElem?_other r r' hi] at hs
      refine h.whole hoverwrite key hkeyMem i s part' value' ⟨hs, hwrites', fun j b hj hb part'' value'' hb' => ?_⟩
      by_cases hj' : as.length = j
      · subst hj'
        rw [getElem?_middle, Option.some.injEq] at hb
        subst hb
        obtain rfl := hwrites.toKeyed.key_eq hb'.toKeyed
        exact hlater as.length r' hj (getElem?_middle as r' bs) part _ (hwrites.renewed hcore hlead)
      · rw [← getElem?_other r r' hj'] at hb
        exact hlater j b hj hb part'' value'' hb'

section

variable (hmem : e.key ∈ keys) (hvalue : IsDigits e.value)

include hmem hvalue

/-- Where no row is written with the key, a row is added. -/
theorem write_new {rows : List Row} (h : ClearLayout overwrite keys t rows rest) (hkey : IsBare e.key)
    (hnone : ∀ r ∈ rows, ∀ part value, ¬ Writes e.key r part value) :
    ∃ rows' rest', ClearLayout overwrite keys (write overwrite t e) rows' rest' ∧
      RowStep overwrite e rows rows' := by
  have hspan : valueSpan? t e.key = none := h.toObjectLayout.valueSpan?_unwritten hkey hnone
  obtain ⟨front, back, lead, trail, hplace, hdecided, -, happend⟩ := exists_place h.legible e.text
  have hsound : Sound rows rest front := by
    obtain rfl | ⟨blank, rfl, hblank⟩ := h.tail
    · exact .inr ⟨rfl, h.rows_ne_nil⟩
    · exact (h.shown ⟨e.key, hmem, hnone⟩ blank rfl).sound h.rows_ne_nil hblank hplace hdecided
  obtain ⟨rows', hcore, hlead, -, -, hlayout⟩ := h.toObjectLayout.added hkey hvalue hplace hsound
  refine ⟨rows' ++ [newRow e.key e.value lead trail hplace.blank_lead hplace.blank_trail], [],
    h.added hkey.label hnone hcore hlead rfl ?_, .add hnone hcore hlead rfl⟩
  simp only [write, hspan]
  rw [h.text, happend]
  exact hlayout

/-- Where rows are written with the key, the value of the last is exchanged or kept. -/
theorem write_known {as : List Row} {r : Row} {bs : List Row}
    (h : ClearLayout overwrite keys t (as ++ r :: bs) rest) (hkey : IsLabel e.key) {part value : List Node}
    (hwrites : Writes e.key r part value) (hunseen : ∀ b ∈ bs, Unseen e.key b) :
    ∃ rows' rest', ClearLayout overwrite keys (write overwrite t e) rows' rest' ∧
      RowStep overwrite e (as ++ r :: bs) rows' := by
  have hnone : ∀ b ∈ bs, ∀ part value, ¬ Writes e.key b part value := fun b hb => (hunseen b hb).not_writes
  have huncut : Uncut (value ++ r.trail) := by
    intro n hn
    apply r.uncut n
    rw [Row.nodes, hwrites.core, List.append_assoc, List.append_assoc]
    exact List.mem_append_right _ (List.mem_append_right _ hn)
  obtain ⟨after, hlegible⟩ := hwrites.legible h.legible
  obtain ⟨span, hspan, -, hslice⟩ := valueSpan?_passed hwrites hkey h.tail hunseen h.legible
  rw [← h.text] at hspan hslice
  have hfound : isVacant (t.slice span) = isVacant (passed (value ++ r.trail)) := by
    rw [hslice, isVacant_trimEnd]
  have hkept (hkeep : overwrite = false) (hstands : isVacant (passed (value ++ r.trail)) = false) :
      ∃ rows' rest', ClearLayout overwrite keys (write overwrite t e) rows' rest' ∧
        RowStep overwrite e (as ++ r :: bs) rows' := by
    refine ⟨as ++ r :: bs, rest, ?_, .keep hlegible hwrites hnone hkeep hstands⟩
    rw [hkeep] at h
    simp only [write, hspan, hkeep, hfound, hstands, Bool.or_self]
    exact h
  obtain ⟨found, behind, hcut, hmarks, hstops | hinside⟩ := exists_cut hlegible huncut
  · by_cases hwrite : (overwrite || isVacant (t.slice span)) = true
    · obtain ⟨body, gap, rfl, hgap, hbody⟩ := exists_body found
      have hbodyMarks : ∀ x ∈ marksOf 1 body, endsValue x = false :=
        fun x hx => hmarks x (by rw [marksOf_append]; exact List.mem_append_left _ hx)
      obtain ⟨span', r', hspan', hslice', hlead, -, ⟨more, hcore, hmore⟩, hlayout⟩ :=
        h.toObjectLayout.rewritten hkey hvalue hwrites hunseen hcut hgap hbody hmarks hstops
      obtain rfl : span = span' := Option.some.inj (hspan.symm.trans hspan')
      refine ⟨as ++ r' :: bs, rest, h.exchanged hmem hkey hwrites hunseen hlead hcore hmore ?_,
        .set hlegible hwrites hnone hlead hcore hmore hbodyMarks ?_⟩
      · simp only [write, hspan, hwrite, if_true]
        exact hlayout
      · rw [Bool.or_eq_true] at hwrite
        refine hwrite.imp_right fun hvacant => ⟨?_, ?_⟩
        · rwa [← hslice']
        · rwa [← hfound]
    · rw [Bool.not_eq_true, Bool.or_eq_false_iff] at hwrite
      exact hkept hwrite.1 (by rw [← hfound]; exact hwrite.2)
  · refine hkept ?_ (not_vacant_inside hcut hmarks hinside)
    apply Bool.eq_false_iff.2
    intro hoverwrite
    have hwhole := h.whole hoverwrite e.key hmem as.length r part value
      ⟨getElem?_middle as r bs, hwrites, fun j b hj hb => hnone b (getElem?_behind hj hb)⟩
    exact hwhole.stops r.blank_trail hcut hinside

/-- A property that is written makes up one step on the rows. -/
theorem write {rows : List Row} (h : ClearLayout overwrite keys t rows rest) :
    ∃ rows' rest', ClearLayout overwrite keys (write overwrite t e) rows' rest' ∧
      RowStep overwrite e rows rows' := by
  obtain hkey | ⟨hkey, i, r, part, value, hr, hwrites, hunseen⟩ := h.named e.key hmem
  · obtain hnone | ⟨as, r, bs, part, value, rfl, hwrites, hnone⟩ := last_writes e.key rows
    · exact h.write_new hmem hvalue hkey hnone
    · exact h.write_known hmem hvalue hkey.label hwrites (h.toObjectLayout.unseen_behind hkey hnone)
  · obtain ⟨as, bs, rfl, rfl⟩ := exists_split hr
    refine h.write_known hmem hvalue hkey hwrites fun b hb => ?_
    obtain ⟨j, hj⟩ := List.getElem?_of_mem hb
    exact hunseen (as.length + 1 + j) b (by omega) (getElem?_later r hj)

end

/-- Properties that are written one after the other make up a run on the rows. -/
theorem writeAll {rows : List Row} (h : ClearLayout overwrite keys t rows rest) {edits : List PropertyEdit}
    (hedits : ∀ e ∈ edits, e.key ∈ keys ∧ IsDigits e.value) :
    ∃ rows' rest', ClearLayout overwrite keys (writeAll overwrite t edits) rows' rest' ∧
      RowRun overwrite edits rows rows' := by
  induction edits generalizing t rows rest with
  | nil => exact ⟨rows, rest, h, .nil rows⟩
  | cons e edits ih =>
      obtain ⟨⟨hmem, hvalue⟩, hedits⟩ := List.forall_mem_cons.1 hedits
      obtain ⟨rows₁, rest₁, h₁, hstep⟩ := h.write hmem hvalue
      obtain ⟨rows', rest', h', hrun⟩ := ih h₁ hedits
      exact ⟨rows', rest', h', .cons hstep hrun⟩

end ClearLayout

end ObjectText

end PugSize
