import PugSize.Proofs.Edit.ClearSteps
import PugSize.Proofs.Edit.PlainObject
import PugSize.Proofs.Edit.Vacant
import PugSize.Proofs.Edit.ValueText

/-!
Values of rows where nothing is to be overwritten. What is passed of a value goes up to a comment or to the end
of a line; a value that stands for something is struck if and only if that stands for nothing.
-/

namespace PugSize

open Script CharClass

namespace ObjectText

/-- A text that stands for nothing with white space of any kind around it stands for nothing alone. -/
theorem vacant_inside {u t w : Text} (hu : ∀ c ∈ u, isSkipped c = true) (hw : ∀ c ∈ w, isSkipped c = true)
    (h : isVacant (u ++ t ++ w) = true) : isVacant t = true := by
  have hblank {c : Char} (hmem : c ∈ u ++ t ++ w) (hskipped : isSkipped c = true) : Text.isBlank c = true := by
    simp only [isSkipped, Bool.or_eq_true, beq_iff_eq] at hskipped
    obtain hblank | rfl := hskipped
    · exact hblank
    · rw [not_vacant_of_mem hmem (by decide) (by decide)] at h
      cases h
  rw [isVacant_append_blank fun c hc => hblank (by simp [hc]) (hw c hc),
    isVacant_blank_append fun c hc => hblank (by simp [hc]) (hu c hc)] at h
  exact h

section

variable {blank solid trail : List Node} {after : Text}
  (h : Legible (lexemesOf (blank ++ solid ++ trail)) after) (hblank : Blank blank) (htrail : Blank trail)
  (hstands : isVacant (textOf solid) = false)

include h hblank htrail hstands

/-- A value that is passed as a whole stands for something if it does so without the white space. -/
theorem not_vacant_passed (hmarks : ∀ x ∈ marksOf 1 (blank ++ solid), endsValue x = false) :
    isVacant (passed (blank ++ solid ++ trail)) = false := by
  rw [lexemesOf_append] at h
  obtain ⟨hvalue, htrailLegible⟩ := legible_append.1 h
  have hblankLegible := hvalue
  rw [lexemesOf_append] at hblankLegible
  have hfront := skipped_of_passed (legible_append.1 hblankLegible).1 hblank
  rw [← List.append_nil blank, passed_append (legible_append.1 hblankLegible).1
    fun x hx => hmarks x (by rw [marksOf_append]; exact List.mem_append_left _ hx)] at hfront
  apply Bool.eq_false_iff.2
  intro hvacant
  rw [passed_append hvalue hmarks, textOf_append] at hvacant
  rw [vacant_inside (fun c hc => hfront c (by simp [hc])) (skipped_of_passed htrailLegible htrail) hvacant]
    at hstands
  cases hstands

/-- Where a value stands for something, white space and comments behind it do not matter. -/
theorem vacant_passed : isVacant (passed (blank ++ solid ++ trail)) = isVacant (passed (blank ++ solid)) := by
  by_cases hmarks : ∀ x ∈ marksOf 1 (blank ++ solid), endsValue x = false
  · have hvalue := h
    rw [lexemesOf_append] at hvalue
    have halone := @not_vacant_passed blank solid [] _
      (by rw [List.append_nil]; exact (legible_append.1 hvalue).1) hblank nofun hstands hmarks
    rw [List.append_nil] at halone
    rw [not_vacant_passed h hblank htrail hstands hmarks, halone]
  · rw [passed_stopped hmarks]

end

/-- Whether the row at a place is the last that is written with a key, and what is passed of its value stands
for nothing. -/
def Struck (key : Text) (rows : List Row) (i : Nat) : Prop :=
  ∃ r part value, LastWrites key rows i r part value ∧ isVacant (passed value) = true

theorem struck_last {key : Text} {as : List Row} {r : Row} {bs : List Row} {part value : List Node}
    (hwrites : Writes key r part value) (hnone : ∀ b ∈ bs, ∀ part value, ¬ Writes key b part value) {i : Nat} :
    Struck key (as ++ r :: bs) i ↔ as.length = i ∧ isVacant (passed value) = true := by
  constructor
  · rintro ⟨s, part', value', ⟨hs, hs', hlater⟩, hvacant⟩
    obtain hlt | heq | hgt := Nat.lt_trichotomy as.length i
    · exact absurd hs' (hnone s (getElem?_behind hlt hs) _ _)
    · subst heq
      rw [getElem?_middle, Option.some.injEq] at hs
      subst hs
      obtain ⟨-, rfl⟩ := hs'.toKeyed.unique hwrites.toKeyed
      exact ⟨rfl, hvacant⟩
    · exact absurd hwrites (hlater as.length r hgt (getElem?_middle as r bs) _ _)
  · rintro ⟨rfl, hvacant⟩
    exact ⟨r, part, value, ⟨getElem?_middle as r bs, hwrites, fun j s hj hs => hnone s (getElem?_behind hj hs)⟩,
      hvacant⟩

namespace RowStep

variable {overwrite : Bool} {e : PropertyEdit} {rows rows' : List Row}

/-- A row is kept unless it is the last that is written with the key. -/
theorem row (h : RowStep overwrite e rows rows') {i : Nat} {r : Row} (hr : rows[i]? = some r) :
    ∃ r', rows'[i]? = some r' ∧ r'.lead = r.lead ∧
      (r'.core = r.core ∨ ∃ part value more, Writes e.key r part value ∧
        r'.core = part ++ .number e.value :: more) := by
  cases h with
  | @add rows rows' new hnone hcore hlead hnew =>
      obtain ⟨r', hr', hcore', hlead'⟩ := exists_same_row hcore.symm hlead.symm hr
      refine ⟨r', ?_, hlead', .inl hcore'⟩
      rw [List.getElem?_append_left (List.getElem?_eq_some_iff.1 hr').1, hr']
  | keep => exact ⟨r, hr, rfl, .inl rfl⟩
  | @set as s bs part value body more s' after hlegible hwrites hnone hlead hcore hmore hmarks hfound =>
      by_cases hi : as.length = i
      · subst hi
        rw [getElem?_middle, Option.some.injEq] at hr
        subst hr
        exact ⟨s', getElem?_middle as s' bs, hlead, .inr ⟨part, value, more, hwrites, hcore⟩⟩
      · exact ⟨r, by rw [getElem?_other s s' hi, hr], rfl, .inl rfl⟩

theorem writes_iff (h : RowStep overwrite e rows rows') {key : Text} (hne : e.key ≠ key) {i : Nat}
    {part value : List Node} :
    (∃ s, rows'[i]? = some s ∧ Writes key s part value) ↔ ∃ s, rows[i]? = some s ∧ Writes key s part value := by
  have hother {s : Row} {part' value' part value : List Node} (hs : Writes e.key s part' value')
      (hs' : Writes key s part value) : False :=
    hne (hs.toKeyed.key_eq hs'.toKeyed)
  constructor
  · rintro ⟨s, hs, hwrites⟩
    by_cases hi : ∃ r, rows[i]? = some r
    · obtain ⟨r, hr⟩ := hi
      obtain ⟨r', hr', hlead, hcore | ⟨part', value', more, hr'', hcore⟩⟩ := h.row hr
      · obtain rfl : s = r' := Option.some.inj (hs.symm.trans hr')
        exact ⟨r, hr, hwrites.congr hcore.symm hlead.symm⟩
      · obtain rfl : s = r' := Option.some.inj (hs.symm.trans hr')
        exact (hother (hr''.renewed hcore hlead) hwrites).elim
    · -- The row has been added, so it is written with the other key.
      cases h with
      | @add rows rows' new hnone hcore hlead hnew =>
          have hlength := congrArg List.length hcore
          rw [List.length_map, List.length_map] at hlength
          have hge : rows.length ≤ i := by
            apply Nat.le_of_not_lt
            exact fun hlt => hi ⟨rows[i], List.getElem?_eq_getElem hlt⟩
          rw [List.getElem?_append_right (by omega), List.getElem?_singleton] at hs
          split at hs
          · rw [Option.some.injEq] at hs
            subst hs
            have hfresh := (keyPart_fresh e.key).unique hwrites.part
              ((hnew.symm.trans hwrites.core : propertyNodes e.key e.value = _) :
                [_, colonNode, .space] ++ [.number e.value] = _)
            exact absurd hfresh hne
          · cases hs
      | keep => exact absurd ⟨s, hs⟩ hi
      | @set as r bs part' value' body more r' after hlegible hr hnone hlead hcore hmore hmarks hfound =>
          refine absurd ?_ hi
          by_cases hj : as.length = i
          · exact ⟨r, by rw [← hj]; exact getElem?_middle as r bs⟩
          · exact ⟨s, by rw [← getElem?_other r r' hj, hs]⟩
  · rintro ⟨s, hs, hwrites⟩
    obtain ⟨s', hs', hlead, hcore | ⟨part', value', more, hs'', -⟩⟩ := h.row hs
    · exact ⟨s', hs', hwrites.congr hcore hlead⟩
    · exact (hother hs'' hwrites).elim

/-- A step for one key does not matter to what is passed for another. -/
theorem struck_iff (h : RowStep overwrite e rows rows') {key : Text} (hne : e.key ≠ key) {i : Nat} :
    Struck key rows' i ↔ Struck key rows i := by
  constructor
  · rintro ⟨r, part, value, ⟨hr, hwrites, hlater⟩, hvacant⟩
    obtain ⟨s, hs, hs'⟩ := (h.writes_iff hne).1 ⟨r, hr, hwrites⟩
    refine ⟨s, part, value, ⟨hs, hs', fun j b hj hb part' value' hb' => ?_⟩, hvacant⟩
    obtain ⟨b', hb'', hwrites'⟩ := (h.writes_iff hne).2 ⟨b, hb, hb'⟩
    exact hlater j b' hj hb'' _ _ hwrites'
  · rintro ⟨r, part, value, ⟨hr, hwrites, hlater⟩, hvacant⟩
    obtain ⟨s, hs, hs'⟩ := (h.writes_iff hne).2 ⟨r, hr, hwrites⟩
    refine ⟨s, part, value, ⟨hs, hs', fun j b hj hb part' value' hb' => ?_⟩, hvacant⟩
    obtain ⟨b', hb'', hwrites'⟩ := (h.writes_iff hne).1 ⟨b, hb, hb'⟩
    exact hlater j b' hj hb'' _ _ hwrites'

end RowStep

/-- A number in place of a front that stands for nothing changes a value that stands for something. -/
theorem textOf_changed {value body more blank solid trail : List Node} {t after : Text}
    (hlegible : Legible (lexemesOf (value ++ trail)) after) (htrail : Blank trail)
    (hmore : Remains value body more) (hmarks : ∀ x ∈ marksOf 1 body, endsValue x = false)
    (hbody : isVacant (textOf body) = true) (hpassed : isVacant (passed (value ++ trail)) = true)
    (hvalue : value = blank ++ solid) (hblank : Blank blank) (hstands : isVacant (textOf solid) = false)
    (ht : IsDigits t) : textOf (.number t :: more) ≠ textOf solid := by
  intro heq
  cases hmore with
  | behind h =>
      have hfront : textOf body = textOf blank ++ t := by
        have htexts := congrArg textOf (h.symm.trans hvalue)
        rw [textOf_append, textOf_append, ← heq, textOf_number_cons, ← List.append_assoc] at htexts
        exact List.append_cancel_right htexts
      rw [hfront, not_vacant_of_number _ ht] at hbody
      cases hbody
  | nothing h hextra =>
      have hvalueMarks : ∀ x ∈ marksOf 1 (blank ++ solid), endsValue x = false := by
        intro x hx
        apply hmarks x
        rw [h, marksOf_append, hvalue]
        exact List.mem_append_left _ hx
      rw [hvalue] at hlegible hpassed
      rw [not_vacant_passed hlegible hblank htrail hstands hvalueMarks] at hpassed
      cases hpassed

namespace RowStep

variable {overwrite : Bool} {e : PropertyEdit} {rows rows' : List Row}

/-- Where nothing is to be overwritten, a value that stands for something is changed if and only if what is
passed of it stands for nothing. -/
theorem stands (h : RowStep false e rows rows') (hkey : IsKey e.key) (hvalue : IsDigits e.value) {i : Nat}
    {r : Row} (hr : rows[i]? = some r) {text : Text} (htext : valueText? r.core = some text)
    (hstands : isVacant text = false) :
    ∃ r', rows'[i]? = some r' ∧ (¬ Struck e.key rows i ∧ r'.core = r.core ∨
      Struck e.key rows i ∧ ∃ part value more, Keyed e.key r.core part value ∧
        r'.core = part ++ .number e.value :: more ∧ valueText? r'.core ≠ some text) := by
  cases h with
  | @add rows rows' new hnone hcore hlead hnew =>
      obtain ⟨r', hr', -, hcore'⟩ := (RowStep.add hnone hcore hlead hnew : RowStep false e rows _).row hr
      obtain hcore' | ⟨part, value, -, hwrites, -⟩ := hcore'
      · refine ⟨r', hr', .inl ⟨?_, hcore'⟩⟩
        rintro ⟨s, part, value, ⟨hs, hwrites, -⟩, -⟩
        exact hnone s (List.mem_of_getElem? hs) part value hwrites
      · exact absurd hwrites (hnone r (List.mem_of_getElem? hr) part value)
  | @keep as s bs part value after hlegible hwrites hnone hkeep hfound =>
      refine ⟨r, hr, .inl ⟨fun hstruck => ?_, rfl⟩⟩
      obtain ⟨rfl, hvacant⟩ := (struck_last hwrites hnone).1 hstruck
      rw [getElem?_middle, Option.some.injEq] at hr
      subst hr
      obtain ⟨blank, solid, rfl, hblank, hsolid⟩ := hwrites.toKeyed.parts s.solid
      obtain rfl := hwrites.toKeyed.valueText? hkey hblank hsolid htext
      rw [vacant_passed hlegible hblank s.blank_trail hstands, hvacant] at hfound
      cases hfound
  | @set as s bs part value body more s' after hlegible hwrites hnone hlead hcore hmore hmarks hfound =>
      by_cases hi : as.length = i
      · subst hi
        rw [getElem?_middle, Option.some.injEq] at hr
        subst hr
        obtain ⟨hbody, hpassed⟩ := hfound.resolve_left nofun
        obtain ⟨blank, solid, hparts, hblank, hsolid⟩ := hwrites.toKeyed.parts s.solid
        have hkeyed := hwrites.toKeyed
        rw [hparts] at hkeyed
        obtain rfl := hkeyed.valueText? hkey hblank hsolid htext
        have hstruck : isVacant (passed value) = true := by
          rw [← hpassed, hparts, vacant_passed (hparts ▸ hlegible) hblank s.blank_trail hstands]
        refine ⟨s', getElem?_middle as s' bs, .inr ⟨(struck_last hwrites hnone).2 ⟨rfl, hstruck⟩,
          part, value, more, hwrites.toKeyed, hcore, fun heq => ?_⟩⟩
        have hkeyed' := hwrites.part.keyed hcore
        obtain ⟨blank', solid', hparts', hblank', hsolid'⟩ := hkeyed'.parts s'.solid
        cases blank' with
        | nil =>
            rw [List.nil_append] at hparts'
            subst hparts'
            have := @Keyed.valueText? _ hkey _ _ [] _ hkeyed' nofun hsolid' _ heq
            exact textOf_changed hlegible s.blank_trail hmore hmarks hbody hpassed hparts hblank hstands hvalue
              this.symm
        | cons n ns =>
            obtain rfl := (List.cons.inj hparts').1
            have := hblank' _ List.mem_cons_self
            cases this
      · refine ⟨r, by rw [getElem?_other s s' hi, hr], .inl ⟨fun hstruck => hi ?_, rfl⟩⟩
        exact ((struck_last hwrites hnone).1 hstruck).1

end RowStep

namespace RowRun

variable {overwrite : Bool} {edits : List PropertyEdit} {rows rows' : List Row}

/-- A row that is written with another key is kept. -/
theorem kept (h : RowRun overwrite edits rows rows') {i : Nat} {r : Row} (hr : rows[i]? = some r) {key : Text}
    {part value : List Node} (hkeyed : Keyed key r.core part value) (hne : ∀ e ∈ edits, e.key ≠ key) :
    ∃ r', rows'[i]? = some r' ∧ r'.core = r.core := by
  induction h generalizing r with
  | nil rows => exact ⟨r, hr, rfl⟩
  | cons hstep hrun ih =>
      obtain ⟨he, hne⟩ := List.forall_mem_cons.1 hne
      obtain ⟨s, hs, -, hcore | ⟨part', value', more, hwrites, -⟩⟩ := hstep.row hr
      · rw [← hcore] at hkeyed
        obtain ⟨r', hr', hcore'⟩ := ih hs hkeyed hne
        exact ⟨r', hr', hcore'.trans hcore⟩
      · exact absurd (hwrites.toKeyed.key_eq hkeyed) he

/-- Where nothing is to be overwritten, a value that stands for something is kept if and only if for no key
what is passed of it stands for nothing. -/
theorem stands (h : RowRun false edits rows rows') (hdistinct : edits.Pairwise fun d e => d.key ≠ e.key)
    (hkeys : ∀ e ∈ edits, IsKey e.key) (hvalues : ∀ e ∈ edits, IsDigits e.value) {i : Nat} {r : Row}
    (hr : rows[i]? = some r) {text : Text} (htext : valueText? r.core = some text)
    (hstands : isVacant text = false) :
    ∃ r', rows'[i]? = some r' ∧
      ((∀ e ∈ edits, ¬ Struck e.key rows i) ∧ r'.core = r.core ∨
        (∃ e ∈ edits, Struck e.key rows i ∧ ∃ part value more, Keyed e.key r.core part value ∧
          r'.core = part ++ .number e.value :: more) ∧ valueText? r'.core ≠ some text) := by
  induction edits generalizing rows r with
  | nil =>
      cases h
      exact ⟨r, hr, .inl ⟨nofun, rfl⟩⟩
  | cons e edits ih =>
      cases h with
      | cons hstep hrun =>
          obtain ⟨hother, hdistinct⟩ := List.pairwise_cons.1 hdistinct
          obtain ⟨hkey, hkeys⟩ := List.forall_mem_cons.1 hkeys
          obtain ⟨hvalue, hvalues⟩ := List.forall_mem_cons.1 hvalues
          obtain ⟨s, hs, ⟨hnot, hcore⟩ | ⟨hstruck, part, value, more, hkeyed, hcore, hchanged⟩⟩ :=
            hstep.stands hkey hvalue hr htext hstands
          · rw [← hcore] at htext
            obtain ⟨r', hr', ⟨hnone, hcore'⟩ | ⟨⟨d, hd, hstruck, part, value, more, hkeyed, hcore'⟩, hchanged⟩⟩ :=
              ih hrun hdistinct hkeys hvalues hs htext
            · refine ⟨r', hr', .inl ⟨List.forall_mem_cons.2 ⟨hnot, fun d hd hstruck => ?_⟩, hcore'.trans hcore⟩⟩
              exact hnone d hd ((hstep.struck_iff (hother d hd)).2 hstruck)
            · rw [hcore] at hkeyed
              exact ⟨r', hr', .inr ⟨⟨d, List.mem_cons_of_mem _ hd, (hstep.struck_iff (hother d hd)).1 hstruck,
                part, value, more, hkeyed, hcore'⟩, hchanged⟩⟩
          · -- The number stays, because no other edit has the key.
            obtain ⟨r', hr', hcore'⟩ := hrun.kept hs (hkeyed.part.keyed hcore) fun d hd => (hother d hd).symm
            exact ⟨r', hr', .inr ⟨⟨e, List.mem_cons_self, hstruck, part, value, more, hkeyed,
              hcore'.trans hcore⟩, hcore' ▸ hchanged⟩⟩

end RowRun

end ObjectText

end PugSize
