import PugSize.Proofs.Edit.PlainObject
import PugSize.Proofs.Edit.Vacant
import PugSize.Proofs.Edit.ValueText

/-!
Cores that are written a second time. What is written for one key does not meet what is written for another, so
the second value of a key takes the place of the first whatever has been written in between.
-/

namespace PugSize

open Script CharClass

namespace ObjectText

theorem LastKeyed.unique {key : Text} {cores : List (List Node)} {i j : Nat} {part value part' value' : List Node}
    (h : LastKeyed key cores i part value) (h' : LastKeyed key cores j part' value') :
    i = j ∧ part = part' ∧ value = value' := by
  obtain rfl := h.index_eq h'
  obtain ⟨c, hc, hkeyed⟩ := h.keyed
  obtain ⟨c', hc', hkeyed'⟩ := h'.keyed
  rw [hc, Option.some.injEq] at hc'
  subst hc'
  exact ⟨rfl, hkeyed.unique hkeyed'⟩

/-- The value of a key that has been exchanged is its last one still. -/
theorem LastKeyed.set {key : Text} {cores : List (List Node)} {i : Nat} {part value : List Node}
    (h : LastKeyed key cores i part value) (v : Text) :
    LastKeyed key (cores.set i (part ++ [.number v])) i part [.number v] := by
  obtain ⟨c, hc, hkeyed⟩ := h.keyed
  refine ⟨⟨_, List.getElem?_set_self (List.getElem?_eq_some_iff.1 hc).1, hkeyed.part.keyed rfl⟩, ?_⟩
  intro j d hij hd
  rw [List.getElem?_set_ne (Nat.ne_of_lt hij)] at hd
  exact h.later j d hij hd

/-- The value of a key that has been added is its last one. -/
theorem lastKeyed_added (key : Text) (cores : List (List Node)) (v : Text) :
    LastKeyed key (cores ++ [propertyNodes key v]) cores.length [nameNode key, colonNode, .space]
      [.number v] := by
  refine ⟨⟨_, List.getElem?_concat_length, (keyPart_fresh key).keyed rfl⟩, ?_⟩
  intro j d hij hd
  rw [List.getElem?_eq_none (by rw [List.length_append, List.length_singleton]; exact hij)] at hd
  cases hd

/-- Whether the last value written with a key stands on one line and for something. -/
def Settled (key : Text) (cores : List (List Node)) : Prop :=
  ∃ i part value, LastKeyed key cores i part value ∧ OneLine value ∧ isVacant (textOf value) = false

theorem Settled.ready {key : Text} {cores : List (List Node)} (h : Settled key cores) : Ready key cores := by
  obtain ⟨i, part, value, hlast, hline, -⟩ := h
  exact .inr ⟨i, part, value, hlast, hline⟩

theorem LastKeyed.settled {key v : Text} {cores : List (List Node)} {i : Nat} {part : List Node}
    (h : LastKeyed key cores i part [.number v]) (hv : IsDigits v) : Settled key cores := by
  refine ⟨i, part, _, h, fun hmem => ?_, ?_⟩
  · have hc := (List.of_mem_zip (by simpa [marksOf, nodeMarks, Node.number] using hmem)).1
    exact absurd (hv.2 _ hc) (by decide)
  · rw [textOf_number]
    exact not_vacant_of_number [] hv

/-- A property written into cores, or kept where the last value of its key stands for something. -/
inductive Turn (overwrite : Bool) (e : PropertyEdit) (cores : List (List Node)) : List (List Node) → Prop
  | write {cores' : List (List Node)} (h : Step e cores cores') : Turn overwrite e cores cores'
  | keep (hkeep : overwrite = false) (h : Settled e.key cores) : Turn overwrite e cores cores

/-- Properties written into cores one after the other. -/
inductive Turns (overwrite : Bool) : List PropertyEdit → List (List Node) → List (List Node) → Prop
  | nil (cores : List (List Node)) : Turns overwrite [] cores cores
  | cons {e : PropertyEdit} {edits : List PropertyEdit} {cores cores₁ cores₂ : List (List Node)}
      (h : Turn overwrite e cores cores₁) (later : Turns overwrite edits cores₁ cores₂) :
      Turns overwrite (e :: edits) cores cores₂

namespace Turn

variable {overwrite : Bool} {e : PropertyEdit} {cores cores' : List (List Node)}

theorem step (h : Turn true e cores cores') : Step e cores cores' := by
  cases h with
  | write h => exact h
  | keep hkeep => cases hkeep

variable (h : Turn overwrite e cores cores')

include h

theorem lastKeyed_iff {key : Text} (hkey : e.key ≠ key) {i : Nat} {part value : List Node} :
    LastKeyed key cores' i part value ↔ LastKeyed key cores i part value := by
  cases h with
  | write h => exact h.lastKeyed_iff hkey
  | keep => rfl

theorem unkeyed_iff {key : Text} (hkey : e.key ≠ key) : Unkeyed key cores' ↔ Unkeyed key cores := by
  cases h with
  | write h => exact h.unkeyed_iff hkey
  | keep => rfl

theorem ready {key : Text} (hkey : e.key ≠ key) (hready : Ready key cores) : Ready key cores' := by
  obtain hnone | ⟨i, part, value, hlast, hline⟩ := hready
  · exact .inl ((h.unkeyed_iff hkey).2 hnone)
  · exact .inr ⟨i, part, value, (h.lastKeyed_iff hkey).2 hlast, hline⟩

theorem settled_other {key : Text} (hkey : e.key ≠ key) (hsettled : Settled key cores) : Settled key cores' := by
  obtain ⟨i, part, value, hlast, hstands⟩ := hsettled
  exact ⟨i, part, value, (h.lastKeyed_iff hkey).2 hlast, hstands⟩

theorem settled (hvalue : IsDigits e.value) : Settled e.key cores' := by
  cases h with
  | write h =>
      cases h with
      | set hlast => exact (hlast.set e.value).settled hvalue
      | add => exact (lastKeyed_added e.key cores e.value).settled hvalue
  | keep _ h => exact h

/-- What is written for one key goes on as before when the value of another one is exchanged first. -/
theorem frame {key : Text} (hkey : e.key ≠ key) {i : Nat} {part value : List Node}
    (hlast : LastKeyed key cores i part value) (v : Text) :
    Turn overwrite e (cores.set i (part ++ [.number v])) (cores'.set i (part ++ [.number v])) := by
  have hset : Step ⟨key, v⟩ cores (cores.set i (part ++ [.number v])) := .set hlast
  cases h with
  | write h =>
      refine .write ?_
      cases h with
      | @set j part' value' hlast' =>
          have hij : i ≠ j := by
            rintro rfl
            obtain ⟨c, hc, hkeyed⟩ := hlast.keyed
            obtain ⟨c', hc', hkeyed'⟩ := hlast'.keyed
            rw [hc, Option.some.injEq] at hc'
            subst hc'
            exact hkey (hkeyed'.key_eq hkeyed)
          rw [List.set_comm _ _ hij.symm]
          exact .set ((hset.lastKeyed_iff hkey.symm).2 hlast')
      | add hnone =>
          obtain ⟨c, hc, -⟩ := hlast.keyed
          rw [List.set_append_left _ _ (List.getElem?_eq_some_iff.1 hc).1]
          exact .add ((hset.unkeyed_iff hkey.symm).2 hnone)
  | keep hkeep h =>
      obtain ⟨j, part', value', hlast', hline, hvalue⟩ := h
      exact .keep hkeep ⟨j, part', value', (hset.lastKeyed_iff hkey.symm).2 hlast', hline, hvalue⟩

/-- The second value that is written for a key takes the place of the first. -/
theorem absorb {e' : PropertyEdit} (hkey : e'.key = e.key) {cores'' : List (List Node)}
    (h' : Step e' cores' cores'') : Step e' cores cores'' := by
  obtain ⟨key, v⟩ := e
  obtain ⟨key', v'⟩ := e'
  obtain rfl : key' = key := hkey
  have hset {i : Nat} {part value : List Node} (hlast : LastKeyed key' cores' i part value) :
      cores'' = cores'.set i (part ++ [.number v']) := by
    cases h' with
    | set hlast' =>
        obtain ⟨rfl, rfl, -⟩ := hlast.unique hlast'
        rfl
    | add hnone => exact absurd hnone hlast.not_unkeyed
  cases h with
  | write h =>
      cases h with
      | set hlast =>
          rw [hset (hlast.set v), List.set_set]
          exact .set hlast
      | add hnone =>
          rw [hset (lastKeyed_added key' cores v), List.set_append_right _ _ (Nat.le_refl _), Nat.sub_self]
          exact .add hnone
  | keep => exact h'

end Turn

theorem Step.unique {e : PropertyEdit} {cores cores' cores'' : List (List Node)} (h : Step e cores cores')
    (h' : Step e cores cores'') : cores' = cores'' := by
  cases h with
  | set hlast =>
      cases h' with
      | set hlast' =>
          obtain ⟨rfl, rfl, -⟩ := hlast.unique hlast'
          rfl
      | add hnone => exact absurd hnone hlast.not_unkeyed
  | add hnone =>
      cases h' with
      | set hlast => exact absurd hnone hlast.not_unkeyed
      | add => rfl

namespace Turns

theorem unique {edits : List PropertyEdit} {cores cores' cores'' : List (List Node)}
    (h : Turns true edits cores cores') (h' : Turns true edits cores cores'') : cores' = cores'' := by
  induction edits generalizing cores with
  | nil =>
      cases h
      cases h'
      rfl
  | cons e edits ih =>
      cases h with
      | cons h later =>
          cases h' with
          | cons h' later' =>
              obtain rfl := h.step.unique h'.step
              exact ih later later'

/-- Properties written into cores one after the other make up a run. -/
theorem run {edits : List PropertyEdit} {cores cores' : List (List Node)} (h : Turns true edits cores cores')
    (hdistinct : edits.Pairwise fun d e => d.key ≠ e.key) (isNew : PropertyEdit → Bool)
    (hnew : ∀ e ∈ edits, isNew e = true ↔ Unkeyed e.key cores) : Run edits (edits.filter isNew) cores cores' := by
  induction h with
  | nil => exact .nil _
  | @cons e edits cores cores₁ cores₂ hturn later ih =>
      obtain ⟨hother, hdistinct⟩ := List.pairwise_cons.1 hdistinct
      obtain ⟨he, hnew⟩ := List.forall_mem_cons.1 hnew
      rw [List.filter_cons]
      refine .cons hturn.step (ih hdistinct fun d hd => ?_) (fun d hd => (hother d hd).symm) (isNew e) he
      rw [hnew d hd, hturn.unkeyed_iff (hother d hd)]

variable {overwrite : Bool} {edits : List PropertyEdit} {cores cores' : List (List Node)}
  (h : Turns overwrite edits cores cores')

include h

theorem lastKeyed_iff {key : Text} (hkeys : ∀ e ∈ edits, e.key ≠ key) {i : Nat} {part value : List Node} :
    LastKeyed key cores' i part value ↔ LastKeyed key cores i part value := by
  induction h with
  | nil => rfl
  | cons h later ih =>
      obtain ⟨hkey, hkeys⟩ := List.forall_mem_cons.1 hkeys
      rw [ih hkeys, h.lastKeyed_iff hkey]

theorem settled_other {key : Text} (hkeys : ∀ e ∈ edits, e.key ≠ key) (hsettled : Settled key cores) :
    Settled key cores' := by
  obtain ⟨i, part, value, hlast, hstands⟩ := hsettled
  exact ⟨i, part, value, (h.lastKeyed_iff hkeys).2 hlast, hstands⟩

theorem settled (hdistinct : edits.Pairwise fun d e => d.key ≠ e.key) (hvalues : ∀ e ∈ edits, IsDigits e.value) :
    ∀ e ∈ edits, Settled e.key cores' := by
  induction h with
  | nil => exact nofun
  | cons h later ih =>
      obtain ⟨hother, hdistinct⟩ := List.pairwise_cons.1 hdistinct
      obtain ⟨hvalue, hvalues⟩ := List.forall_mem_cons.1 hvalues
      refine List.forall_mem_cons.2 ⟨?_, ih hdistinct hvalues⟩
      exact later.settled_other (fun d hd => (hother d hd).symm) (h.settled hvalue)

theorem frame {key : Text} (hkeys : ∀ e ∈ edits, e.key ≠ key) {i : Nat} {part value : List Node}
    (hlast : LastKeyed key cores i part value) (v : Text) :
    Turns overwrite edits (cores.set i (part ++ [.number v])) (cores'.set i (part ++ [.number v])) := by
  induction h with
  | nil => exact .nil _
  | cons h later ih =>
      obtain ⟨hkey, hkeys⟩ := List.forall_mem_cons.1 hkeys
      exact .cons (h.frame hkey hlast v) (ih hkeys ((h.lastKeyed_iff hkey).2 hlast))

/-- Of the values that are written for some keys, and then again for all of them, the second ones are left. -/
theorem absorb {edits' : List PropertyEdit} {cores'' : List (List Node)} (h' : Turns true edits' cores' cores'')
    (hsame : edits'.map PropertyEdit.key = edits.map PropertyEdit.key)
    (hdistinct : edits.Pairwise fun d e => d.key ≠ e.key) (hvalues : ∀ e ∈ edits, IsDigits e.value) :
    Turns true edits' cores cores'' := by
  induction edits generalizing cores cores' edits' with
  | nil =>
      cases h
      obtain rfl := List.map_eq_nil_iff.1 hsame
      exact h'
  | cons e edits ih =>
      obtain ⟨hother, hdistinct⟩ := List.pairwise_cons.1 hdistinct
      obtain ⟨hvalue, hvalues⟩ := List.forall_mem_cons.1 hvalues
      obtain ⟨e', edits', rfl, hkey, hsame⟩ := List.map_eq_cons_iff.1 hsame
      have hkeys : ∀ d ∈ edits, d.key ≠ e'.key := fun d hd => hkey ▸ (hother d hd).symm
      cases h with
      | cons h later =>
          cases h' with
          | cons h' later' =>
              obtain ⟨i, part, value, hlast, -⟩ := h.settled hvalue
              rw [← hkey] at hlast
              -- The second value of the first key is exchanged before the other keys are written.
              obtain rfl := (Step.set ((later.lastKeyed_iff hkeys).2 hlast)).unique h'.step
              exact .cons (.write (h.absorb hkey (.set hlast)))
                (ih (later.frame hkeys hlast e'.value) later' hsame hdistinct hvalues)

end Turns

end ObjectText

end PugSize
