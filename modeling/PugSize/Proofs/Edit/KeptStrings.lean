import PugSize.Mixin.Arguments
import PugSize.Proofs.Edit.ClearSteps

/-!
The strings of an object while properties are written under other keys. Comments may stand anywhere but
where they hide a comma or cut a value: a property that is written leaves an object again that has the
property, and what the other keys are read with stays.
-/

namespace PugSize

open Script CharClass

namespace ObjectText

/-- What a core is read with: its key, and its value if that is a string. -/
def corePair? (core : List Node) : Option (Option Text × Option Text) :=
  (property? (placeRow 0 core)).map fun p => (p.key, p.value.str?)

/-- The string of the last core with a key. -/
def stringOf? (cores : List (List Node)) (key : Text) : Option Text :=
  ((cores.filterMap corePair?).reverse.find? fun pair => pair.1 == some key).bind Prod.snd

theorem corePair?_eq {r : Row} {offset : Nat} {p : Property Expr}
    (h : property? (r.trees offset) = some p) : corePair? r.core = some (p.key, p.value.str?) := by
  have hshift := placeRow_shift (offset + widthOf r.lead) 0 r.core
  rw [Nat.zero_add] at hshift
  rw [Row.trees, hshift, property?_shift] at h
  obtain ⟨q, hq, rfl⟩ := Option.map_eq_some_iff.1 h
  rw [corePair?, hq, Option.map_some]
  have hvalue : (Property.shift (offset + widthOf r.lead) q).value.str? = q.value.str? :=
    Expr.str?_shift _ _
  rw [hvalue]
  rfl

theorem pairs_of_rows {offset : Nat} {rows : List Row} {props : List (Property Expr)}
    (h : readRows property? offset rows = some props) :
    (rows.map Row.core).filterMap corePair? = props.map fun p => (p.key, p.value.str?) := by
  induction rows generalizing offset props with
  | nil =>
      cases h
      rfl
  | cons r rows ih =>
      obtain ⟨p, hp, hlater⟩ := Option.bind_eq_some_iff.1 h
      obtain ⟨ps, hps, rfl⟩ := Option.map_eq_some_iff.1 hlater
      rw [List.map_cons, List.filterMap_cons_some (corePair?_eq hp), ih hps, List.map_cons]

theorem stringProperty?_rows {offset : Nat} {rows : List Row} {props : List (Property Expr)}
    (h : readRows property? offset rows = some props) (key : Text) :
    stringProperty? props key = stringOf? (rows.map Row.core) key := by
  have hcomp : ((fun pair : Option Text × Option Text => pair.1 == some key) ∘ fun p : Property Expr =>
      (p.key, p.value.str?)) = fun p => p.key == some key := rfl
  rw [stringOf?, pairs_of_rows h, ← List.map_reverse, List.find?_map, hcomp, stringProperty?,
    Property.find?]
  cases props.reverse.find? fun p => p.key == some key <;> rfl

/-- A core without the key is passed over. -/
theorem stringOf?_other {as bs : List (List Node)} {core : List Node} {key : Text}
    (h : ∀ pair, corePair? core = some pair → pair.1 ≠ some key) :
    stringOf? (as ++ core :: bs) key = stringOf? (as ++ bs) key := by
  rw [stringOf?, stringOf?, List.filterMap_append, List.filterMap_append]
  cases hcore : corePair? core with
  | none => rw [List.filterMap_cons_none hcore]
  | some pair =>
      rw [List.filterMap_cons_some hcore, List.reverse_append, List.reverse_cons, List.reverse_append,
        List.append_assoc, List.find?_append, List.singleton_append, List.find?_cons_of_neg, List.find?_append]
      simpa using h pair hcore

theorem KeyPart.pair_key {key : Text} (hkey : IsLabel key) {part value : List Node} (h : KeyPart key part)
    {pair : Option Text × Option Text} (hpair : corePair? (part ++ value) = some pair) :
    pair.1 = some key := by
  obtain ⟨span, hread⟩ := property?_keyPart hkey h value 0
  rw [corePair?, hread] at hpair
  obtain ⟨p, hp, rfl⟩ := Option.map_eq_some_iff.1 hpair
  obtain ⟨v, -, rfl⟩ := Option.map_eq_some_iff.1 hp
  rfl

section

variable {key : Text} {r : Row} {part value : List Node} (hwrites : Writes key r part value)

include hwrites

/-- Exchanging a value keeps the strings of all other keys. -/
theorem stringOf?_rewritten (hkey : IsLabel key) {as bs : List Row} {r' : Row} {later : List Node}
    (hcore : r'.core = part ++ later) {key' : Text} (hne : key' ≠ key) :
    stringOf? ((as ++ r' :: bs).map Row.core) key' = stringOf? ((as ++ r :: bs).map Row.core) key' := by
  have hother {core behind : List Node} (hcore : core = part ++ behind) :
      ∀ pair, corePair? core = some pair → pair.1 ≠ some key' := by
    intro pair hpair hkeyed
    rw [hcore] at hpair
    rw [hwrites.part.pair_key hkey hpair] at hkeyed
    exact hne (Option.some.inj hkeyed).symm
  rw [List.map_append, List.map_append, List.map_cons, List.map_cons, stringOf?_other (hother hcore),
    stringOf?_other (hother hwrites.core)]

end

/-- A property that is written keeps the strings of all other keys. -/
theorem RowStep.strings {overwrite : Bool} {e : PropertyEdit} {rows rows' : List Row}
    (h : RowStep overwrite e rows rows') (hkey : IsLabel e.key) {key : Text} (hne : key ≠ e.key) :
    stringOf? (rows'.map Row.core) key = stringOf? (rows.map Row.core) key := by
  cases h with
  | @add rows rows' new hnone hcore hlead hnew =>
      have hother : ∀ pair, corePair? new.core = some pair → pair.1 ≠ some key := by
        intro pair hpair hkeyed
        rw [hnew] at hpair
        rw [(keyPart_fresh e.key).pair_key hkey hpair] at hkeyed
        exact hne (Option.some.inj hkeyed).symm
      have hadded := @stringOf?_other (rows.map Row.core) [] _ key hother
      rw [List.append_nil] at hadded
      rw [List.map_append, hcore]
      exact hadded
  | keep => rfl
  | set hlegible hwrites hnone hlead hcore hmore hmarks hfound => exact stringOf?_rewritten hwrites hkey hcore hne

/-- Properties that are written one after the other keep the strings of all keys that are not among theirs. -/
theorem RowRun.strings {overwrite : Bool} {edits : List PropertyEdit} {rows rows' : List Row}
    (h : RowRun overwrite edits rows rows') (hkeys : ∀ e ∈ edits, IsLabel e.key) {key : Text}
    (hnot : ∀ e ∈ edits, key ≠ e.key) :
    stringOf? (rows'.map Row.core) key = stringOf? (rows.map Row.core) key := by
  induction h with
  | nil rows => rfl
  | cons hstep hrun ih =>
      obtain ⟨hkey, hkeys⟩ := List.forall_mem_cons.1 hkeys
      obtain ⟨hne, hnot⟩ := List.forall_mem_cons.1 hnot
      rw [ih hkeys hnot, hstep.strings hkey hne]

/-- A property is found under a key that some row is written with. -/
theorem hasProperty_rows {offset : Nat} {rows : List Row} {props : List (Property Expr)}
    (h : readRows property? offset rows = some props) {key : Text} (hkey : IsLabel key)
    (hkeyed : ¬ Unkeyed key (rows.map Row.core)) : hasProperty props key = true := by
  simp only [Unkeyed, not_forall, not_not] at hkeyed
  obtain ⟨core, hcore, part, value, hpart⟩ := hkeyed
  obtain ⟨r, hr, rfl⟩ := List.mem_map.1 hcore
  obtain ⟨as, bs, rfl⟩ := List.append_of_mem hr
  obtain ⟨p, hp, hproperty⟩ := readRows_split h
  have hpair := corePair?_eq hproperty
  rw [hpart.core] at hpair
  rw [hasProperty, Property.find?, List.find?_isSome]
  refine ⟨p, List.mem_reverse.2 (List.mem_of_getElem? hp), ?_⟩
  rw [beq_iff_eq]
  exact hpart.part.pair_key hkey hpair

/-- A property that is written takes no key away. -/
theorem RowStep.unkeyed {overwrite : Bool} {e : PropertyEdit} {rows rows' : List Row}
    (h : RowStep overwrite e rows rows') {key : Text} (hnone : Unkeyed key (rows'.map Row.core)) :
    Unkeyed key (rows.map Row.core) := by
  cases h with
  | @add rows rows' new _ hcore _ _ =>
      rw [List.map_append, hcore] at hnone
      exact fun c hc => hnone c (List.mem_append_left _ hc)
  | keep => exact hnone
  | @set as r bs part value body more r' after _ hwrites _ _ hcore _ _ _ =>
      intro c hc part' value' hkeyed
      simp only [List.map_append, List.map_cons, List.mem_append, List.mem_cons] at hc
      obtain hc | rfl | hc := hc
      · exact hnone c (by simp [hc]) part' value' hkeyed
      · obtain rfl := hwrites.toKeyed.key_eq hkeyed
        exact hnone r'.core (by simp) part _ (hwrites.part.keyed hcore)
      · exact hnone c (by simp [hc]) part' value' hkeyed

/-- A property that is written has a row with its key. -/
theorem RowStep.keyed {overwrite : Bool} {e : PropertyEdit} {rows rows' : List Row}
    (h : RowStep overwrite e rows rows') : ¬ Unkeyed e.key (rows'.map Row.core) := by
  intro hnone
  cases h with
  | @add rows rows' new _ _ _ hnew =>
      exact hnone new.core (by simp) _ _ ((keyPart_fresh e.key).keyed hnew)
  | @keep as r bs part value after _ hwrites _ _ _ =>
      exact hnone r.core (by simp) _ _ hwrites.toKeyed
  | @set as r bs part value body more r' after _ hwrites _ _ hcore _ _ _ =>
      exact hnone r'.core (by simp) _ _ (hwrites.part.keyed hcore)

theorem RowRun.unkeyed {overwrite : Bool} {edits : List PropertyEdit} {rows rows' : List Row}
    (h : RowRun overwrite edits rows rows') {key : Text} (hnone : Unkeyed key (rows'.map Row.core)) :
    Unkeyed key (rows.map Row.core) := by
  induction h with
  | nil => exact hnone
  | cons hstep hrun ih => exact hstep.unkeyed (ih hnone)

/-- Properties that are written one after the other all have rows with their keys. -/
theorem RowRun.keyed {overwrite : Bool} {edits : List PropertyEdit} {rows rows' : List Row}
    (h : RowRun overwrite edits rows rows') : ∀ e ∈ edits, ¬ Unkeyed e.key (rows'.map Row.core) := by
  induction h with
  | nil => exact nofun
  | cons hstep hrun ih =>
      exact List.forall_mem_cons.2 ⟨fun hnone => hstep.keyed (hrun.unkeyed hnone), ih⟩

/-- What an object is read as after properties have been written into it: it has all of them, and the
strings of all keys but theirs. -/
structure WrittenInto (props : List (Property Expr)) (keys : List Text) (edits : List PropertyEdit)
    (props' : List (Property Expr)) : Prop where
  strings : ∀ key, key ∉ keys → stringProperty? props' key = stringProperty? props key
  has : ∀ e ∈ edits, hasProperty props' e.key = true

/-- Properties written into an object leave an object, which is read as such wherever it stands. -/
theorem exists_written {overwrite : Bool} {keys : List Text} {inside : List Node}
    (hlegible : Legible (lexemesOf inside) ['}']) {offset : Nat}
    {props : List (Property Expr)} (hprops : properties? (place offset inside) = some props)
    (hne : props ≠ []) (hclear : ClearInRows overwrite keys (braced inside)) {edits : List PropertyEdit}
    (hedits : ∀ e ∈ edits, e.key ∈ keys ∧ IsDigits e.value) :
    ∃ inside', writeAll overwrite (braced inside) edits = braced inside' ∧
      Legible (lexemesOf inside') ['}'] ∧
      ∀ offset', ∃ props', properties? (place offset' inside') = some props' ∧
        WrittenInto props keys edits props' := by
  rw [properties?_eq] at hprops
  obtain ⟨rows, rest, rfl, hrest, hrows⟩ := rowsOf?_place.1 hprops
  have hlayout : ObjectLayout (braced (rowNodes rows rest)) rows rest :=
    ⟨rfl, hlegible, hrest, (isSome_property?_rows offset rows).1 ⟨props, hrows⟩⟩
  have hrowsNe : rows ≠ [] := by
    rintro rfl
    cases hrows
    exact hne rfl
  have hclearLayout := hclear rows rest hlayout hrowsNe
  have hkeys : ∀ key ∈ keys, IsLabel key :=
    fun key hkey => (hclearLayout.named key hkey).elim IsBare.label Held.label
  obtain ⟨rows', rest', hwritten, hrun⟩ := hclearLayout.writeAll hedits
  refine ⟨rowNodes rows' rest', hwritten.text, hwritten.legible, fun offset' => ?_⟩
  obtain ⟨props', hrows'⟩ := (isSome_property?_rows offset' rows').2 hwritten.reads
  refine ⟨props', ?_, fun key hnot => ?_, fun e he => ?_⟩
  · rw [properties?_eq]
    exact rowsOf?_place.2 ⟨rows', rest', rfl, hwritten.tail, hrows'⟩
  · rw [stringProperty?_rows hrows', stringProperty?_rows hrows]
    refine hrun.strings (fun e he => hkeys _ (hedits e he).1) fun e he heq => hnot ?_
    rw [heq]
    exact (hedits e he).1
  · exact hasProperty_rows hrows' (hkeys _ (hedits e he).1) (hrun.keyed e he)

end ObjectText

end PugSize
