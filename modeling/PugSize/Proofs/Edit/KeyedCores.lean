import PugSize.Proofs.Edit.ObjectRows

/-!
The cores of the rows of an object while properties are written into it. A step exchanges the value
of the last core that is written with the key, or adds a core behind the others. Steps for different
keys do not meet, so of a whole run it can be told which cores are kept.
-/

namespace PugSize

open Script CharClass

namespace ObjectText

theorem KeyPart.name {key : Text} {part : List Node} (h : KeyPart key part) :
    ∃ (l : Lexeme) (plain : l.isPlain = true) (more : List Node), part = .leaf l plain :: more ∧
      IsName key l := by
  obtain ⟨plain, hname, -, -⟩ := h
  exact ⟨_, plain, _, rfl, hname⟩

theorem IsName.unique {key key' : Text} {l : Lexeme} (h : IsName key l) (h' : IsName key' l) :
    key = key' := by
  obtain rfl | rfl | ⟨q, -, rfl⟩ := h
  · obtain heq | heq | ⟨q, -, heq⟩ := h'
    · exact congrArg Lexeme.text heq
    · cases congrArg Lexeme.kind heq
    · cases congrArg Lexeme.kind heq
  · obtain heq | heq | ⟨q, -, heq⟩ := h'
    · cases congrArg Lexeme.kind heq
    · exact congrArg Lexeme.text heq
    · cases congrArg Lexeme.kind heq
  · obtain heq | heq | ⟨q', -, heq⟩ := h'
    · cases congrArg Lexeme.kind heq
    · cases congrArg Lexeme.kind heq
    · have htext : q :: key ++ [q] = q' :: key' ++ [q'] := congrArg Lexeme.text heq
      exact (List.append_inj' (List.cons.inj htext).2 rfl).1

/-- Nodes begin with one key at most. -/
theorem KeyPart.unique {key key' : Text} {part part' more more' : List Node} (h : KeyPart key part)
    (h' : KeyPart key' part') (heq : part ++ more = part' ++ more') : key = key' := by
  obtain ⟨l, plain, ns, rfl, hname⟩ := h.name
  obtain ⟨l', plain', ns', rfl, hname'⟩ := h'.name
  have hleaf : Node.leaf l plain = .leaf l' plain' := (List.cons.inj heq).1
  cases hleaf
  exact hname.unique hname'

/-- Nodes are written with one key at most. -/
theorem Keyed.key_eq {key key' : Text} {ns part part' value value' : List Node} (h : Keyed key ns part value)
    (h' : Keyed key' ns part' value') : key = key' :=
  h.part.unique h'.part (h.core.symm.trans h'.core)

/-- Whether no core is written with a key. -/
def Unkeyed (key : Text) (cores : List (List Node)) : Prop :=
  ∀ c ∈ cores, ∀ part value, ¬ Keyed key c part value

/-- Whether a place holds the last core that is written with a key. -/
structure LastKeyed (key : Text) (cores : List (List Node)) (i : Nat) (part value : List Node) :
    Prop where
  keyed : ∃ c, cores[i]? = some c ∧ Keyed key c part value
  later : ∀ j c, i < j → cores[j]? = some c → ∀ part value, ¬ Keyed key c part value

/-- Whether a core is a key with a number that has been written. -/
def Written (e : PropertyEdit) (core : List Node) : Prop :=
  ∃ part, KeyPart e.key part ∧ core = part ++ [.number e.value]

theorem written_propertyNodes (e : PropertyEdit) : Written e (propertyNodes e.key e.value) :=
  ⟨_, keyPart_fresh e.key, rfl⟩

theorem Written.key_eq {e : PropertyEdit} {core part value : List Node} {key : Text}
    (h : Written e core) (h' : Keyed key core part value) : e.key = key := by
  obtain ⟨part', hpart', hcore⟩ := h
  exact hpart'.unique h'.part (hcore.symm.trans h'.core)

theorem LastKeyed.not_unkeyed {key : Text} {cores : List (List Node)} {i : Nat}
    {part value : List Node} (h : LastKeyed key cores i part value) : ¬ Unkeyed key cores := by
  obtain ⟨c, hc, hkeyed⟩ := h.keyed
  exact fun hnone => hnone c (List.mem_of_getElem? hc) part value hkeyed

theorem LastKeyed.index_eq {key : Text} {cores : List (List Node)} {i j : Nat}
    {part value part' value' : List Node} (h : LastKeyed key cores i part value)
    (h' : LastKeyed key cores j part' value') : i = j := by
  obtain ⟨c, hc, hkeyed⟩ := h.keyed
  obtain ⟨c', hc', hkeyed'⟩ := h'.keyed
  obtain hij | rfl | hji := Nat.lt_trichotomy i j
  · exact absurd hkeyed' (h.later j c' hij hc' _ _)
  · rfl
  · exact absurd hkeyed (h'.later i c hji hc _ _)

/-- A property written into cores. -/
inductive Step (e : PropertyEdit) (cores : List (List Node)) : List (List Node) → Prop
  | set {i : Nat} {part value : List Node} (h : LastKeyed e.key cores i part value) :
      Step e cores (cores.set i (part ++ [.number e.value]))
  | add (h : Unkeyed e.key cores) : Step e cores (cores ++ [propertyNodes e.key e.value])

namespace Step

variable {e : PropertyEdit} {cores cores' : List (List Node)} (h : Step e cores cores')

include h

theorem kept {i : Nat} {c : List Node} (hc : cores[i]? = some c) :
    cores'[i]? = some c ∨ ∃ part value, LastKeyed e.key cores i part value ∧
      cores'[i]? = some (part ++ [.number e.value]) := by
  cases h with
  | @set j part value hlast =>
      by_cases hij : j = i
      · subst hij
        refine .inr ⟨part, value, hlast, ?_⟩
        rw [List.getElem?_set_self (List.getElem?_eq_some_iff.1 hc).1]
      · exact .inl (by rw [List.getElem?_set_ne hij, hc])
  | add hnone =>
      exact .inl (by rw [List.getElem?_append_left (List.getElem?_eq_some_iff.1 hc).1, hc])

/-- Each core was there before or has been written. -/
theorem source {i : Nat} {c : List Node} (hc : cores'[i]? = some c) :
    cores[i]? = some c ∨ Written e c := by
  cases h with
  | @set j part value hlast =>
      by_cases hij : j = i
      · subst hij
        obtain ⟨d, hd, hkeyed⟩ := hlast.keyed
        rw [List.getElem?_set_self (List.getElem?_eq_some_iff.1 hd).1, Option.some.injEq] at hc
        exact .inr ⟨part, hkeyed.part, hc.symm⟩
      · rw [List.getElem?_set_ne hij] at hc
        exact .inl hc
  | add hnone =>
      rw [List.getElem?_append] at hc
      split at hc
      · exact .inl hc
      · rw [List.getElem?_singleton] at hc
        split at hc
        · rw [← Option.some.inj hc]
          exact .inr (written_propertyNodes e)
        · cases hc

theorem set_at {i : Nat} {part value : List Node} (hlast : LastKeyed e.key cores i part value) :
    ∃ c, cores'[i]? = some c ∧ Written e c := by
  cases h with
  | @set j part' value' hlast' =>
      obtain ⟨c, hc, hkeyed⟩ := hlast.keyed
      obtain ⟨c', hc', hkeyed'⟩ := hlast'.keyed
      obtain hij | rfl | hji := Nat.lt_trichotomy i j
      · exact absurd hkeyed' (hlast.later j c' hij hc' _ _)
      · refine ⟨_, List.getElem?_set_self (List.getElem?_eq_some_iff.1 hc).1, part', hkeyed'.part, rfl⟩
      · exact absurd hkeyed (hlast'.later i c hji hc _ _)
  | add hnone => exact absurd hnone hlast.not_unkeyed

/-- A step for one key leaves the cores with another key where they are. -/
theorem keyed_iff {key : Text} (hkey : e.key ≠ key) {i : Nat} {part value : List Node} :
    (∃ c, cores'[i]? = some c ∧ Keyed key c part value) ↔
      ∃ c, cores[i]? = some c ∧ Keyed key c part value := by
  constructor
  · rintro ⟨c, hc, hkeyed⟩
    obtain hc | hwritten := h.source hc
    · exact ⟨c, hc, hkeyed⟩
    · exact absurd (hwritten.key_eq hkeyed) hkey
  · rintro ⟨c, hc, hkeyed⟩
    obtain hc' | ⟨part', value', hlast, -⟩ := h.kept hc
    · exact ⟨c, hc', hkeyed⟩
    · obtain ⟨d, hd, hkeyed'⟩ := hlast.keyed
      rw [hc, Option.some.injEq] at hd
      subst hd
      exact absurd (hkeyed'.key_eq hkeyed) hkey

theorem lastKeyed_iff {key : Text} (hkey : e.key ≠ key) {i : Nat} {part value : List Node} :
    LastKeyed key cores' i part value ↔ LastKeyed key cores i part value := by
  constructor
  · intro hlast
    refine ⟨(h.keyed_iff hkey).1 hlast.keyed, ?_⟩
    intro j c hij hc part value hkeyed
    obtain ⟨d, hd, hkeyed'⟩ := (h.keyed_iff hkey).2 ⟨c, hc, hkeyed⟩
    exact hlast.later j d hij hd part value hkeyed'
  · intro hlast
    refine ⟨(h.keyed_iff hkey).2 hlast.keyed, ?_⟩
    intro j c hij hc part value hkeyed
    obtain ⟨d, hd, hkeyed'⟩ := (h.keyed_iff hkey).1 ⟨c, hc, hkeyed⟩
    exact hlast.later j d hij hd part value hkeyed'

theorem unkeyed_iff {key : Text} (hkey : e.key ≠ key) : Unkeyed key cores' ↔ Unkeyed key cores := by
  constructor
  · intro hnone c hc part value hkeyed
    obtain ⟨i, hi⟩ := List.getElem?_of_mem hc
    obtain ⟨d, hd, hkeyed'⟩ := (h.keyed_iff hkey).2 ⟨c, hi, hkeyed⟩
    exact hnone d (List.mem_of_getElem? hd) part value hkeyed'
  · intro hnone c hc part value hkeyed
    obtain ⟨i, hi⟩ := List.getElem?_of_mem hc
    obtain ⟨d, hd, hkeyed'⟩ := (h.keyed_iff hkey).1 ⟨c, hi, hkeyed⟩
    exact hnone d (List.mem_of_getElem? hd) part value hkeyed'

end Step

/-- What a run of steps does to cores: those of other keys are kept, the last one of each key that is
written has its value exchanged, and one core for each new key stands behind the others. -/
structure Run (edits added : List PropertyEdit) (cores cores' : List (List Node)) : Prop where
  kept : ∀ i c, cores[i]? = some c → cores'[i]? = some c ∨
    ∃ e ∈ edits, ∃ part value, LastKeyed e.key cores i part value ∧
      cores'[i]? = some (part ++ [.number e.value])
  set : ∀ e ∈ edits, ∀ i part value, LastKeyed e.key cores i part value →
    ∃ c, cores'[i]? = some c ∧ Written e c
  added : ∃ init, init.length = cores.length ∧
    cores' = init ++ added.map fun e => propertyNodes e.key e.value

theorem Run.written_kept {edits added : List PropertyEdit} {cores cores' : List (List Node)}
    (h : Run edits added cores cores') {e : PropertyEdit} (he : ∀ d ∈ edits, d.key ≠ e.key) {i : Nat}
    {c : List Node} (hc : cores[i]? = some c) (hwritten : Written e c) : cores'[i]? = some c := by
  obtain hkept | ⟨d, hd, part, value, hlast, -⟩ := h.kept i c hc
  · exact hkept
  · obtain ⟨c', hc', hkeyed⟩ := hlast.keyed
    rw [hc, Option.some.injEq] at hc'
    subst hc'
    exact absurd (hwritten.key_eq hkeyed).symm (he d hd)

theorem Run.nil (cores : List (List Node)) : Run [] [] cores cores :=
  ⟨fun _ _ hc => .inl hc, nofun, cores, rfl, by simp⟩

/-- A step put in front of a run. -/
theorem Run.cons {e : PropertyEdit} {edits added : List PropertyEdit}
    {cores cores₁ cores₂ : List (List Node)} (hstep : Step e cores cores₁)
    (hrun : Run edits added cores₁ cores₂) (hdistinct : ∀ d ∈ edits, d.key ≠ e.key)
    (isNew : Bool) (hnew : isNew = true ↔ Unkeyed e.key cores) :
    Run (e :: edits) (if isNew then e :: added else added) cores cores₂ := by
  refine ⟨?_, ?_, ?_⟩
  · intro i c hc
    obtain hc₁ | ⟨part, value, hlast, hc₁⟩ := hstep.kept hc
    · obtain hc₂ | ⟨d, hd, part, value, hlast, hc₂⟩ := hrun.kept i c hc₁
      · exact .inl hc₂
      · have hlast' := (hstep.lastKeyed_iff (hdistinct d hd).symm).1 hlast
        exact .inr ⟨d, List.mem_cons_of_mem _ hd, part, value, hlast', hc₂⟩
    · obtain ⟨d, -, hkeyed⟩ := hlast.keyed
      have hc₂ := hrun.written_kept hdistinct hc₁ ⟨part, hkeyed.part, rfl⟩
      exact .inr ⟨e, List.mem_cons_self, part, value, hlast, hc₂⟩
  · intro d hd i part value hlast
    obtain rfl | hd := List.mem_cons.1 hd
    · obtain ⟨c, hc, hwritten⟩ := hstep.set_at hlast
      exact ⟨c, hrun.written_kept hdistinct hc hwritten, hwritten⟩
    · exact hrun.set d hd i part value ((hstep.lastKeyed_iff (hdistinct d hd).symm).2 hlast)
  · obtain ⟨init, hlength, hcores₂⟩ := hrun.added
    cases hstep with
    | @set i part value hlast =>
        have hfalse : isNew = false := by
          apply Bool.eq_false_iff.2
          exact fun htrue => hlast.not_unkeyed (hnew.1 htrue)
        rw [List.length_set] at hlength
        exact ⟨init, hlength, by rw [hfalse]; exact hcores₂⟩
    | add hnone =>
        have hat : (cores ++ [propertyNodes e.key e.value])[cores.length]? =
            some (propertyNodes e.key e.value) := List.getElem?_concat_length
        have hkept := hrun.written_kept hdistinct hat (written_propertyNodes e)
        rw [List.length_append, List.length_singleton] at hlength
        obtain ⟨front, last, rfl⟩ := (List.eq_nil_or_concat init).resolve_left (by
          rintro rfl
          cases hlength)
        rw [List.concat_eq_append] at *
        rw [List.length_append, List.length_singleton, Nat.add_right_cancel_iff] at hlength
        rw [hcores₂, List.append_assoc, ← hlength, List.getElem?_append_right (Nat.le_refl _),
          Nat.sub_self] at hkept
        obtain rfl : last = propertyNodes e.key e.value := Option.some.inj hkept
        refine ⟨front, hlength, ?_⟩
        rw [hcores₂, if_pos (hnew.2 hnone), List.map_cons, List.append_assoc]
        rfl

end ObjectText
end PugSize
