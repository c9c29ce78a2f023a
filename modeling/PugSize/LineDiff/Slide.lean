import PugSize.LineDiff.Run

/-!
Edit scripts with fewer and larger changes. An addition next to kept members that it begins or ends
with can slide over them, and changes of one kind that meet become one. A script in work is held
open at one run: the runs before it, the last of them first, the run, and the runs after it.
-/

namespace PugSize.LineDiff

variable {α : Type} [BEq α]

structure Opened (α : Type) where
  before : List (Run α)
  this : Run α
  after : List (Run α)

/-- Kept members put before runs, as part of the first one if that is kept too. -/
def keepBefore (members : List α) : List (Run α) → List (Run α)
  | ⟨.keep, more⟩ :: rest => ⟨.keep, members ++ more⟩ :: rest
  | rest => ⟨.keep, members⟩ :: rest

/-- Kept members put behind runs that are given with the last one first. -/
def keepBehind (members : List α) : List (Run α) → List (Run α)
  | ⟨.keep, more⟩ :: rest => ⟨.keep, more ++ members⟩ :: rest
  | rest => ⟨.keep, members⟩ :: rest

/-- What bounds the number of moves over runs. -/
def extent : List (Run α) → Nat
  | [] => 0
  | r :: rs => r.members.length + 1 + extent rs

omit [BEq α] in
@[simp] theorem extent_cons (r : Run α) (rs : List (Run α)) :
    extent (r :: rs) = r.members.length + 1 + extent rs := rfl

omit [BEq α] in
/-- Fewer kept members mean fewer moves. -/
theorem extent_runOf_append_lt {r : Run α} {rest : List α} (rs : List (Run α))
    (h : rest.length < r.members.length ∨ rest = []) :
    extent (runOf .keep rest ++ rs) < extent (r :: rs) := by
  unfold runOf
  split
  · simp
  · rename_i hne
    have : rest ≠ [] := by simpa using hne
    simp only [List.cons_append, List.nil_append, extent_cons]
    rcases h with h | h
    · omega
    · exact absurd h this

/-- The open run moved up as far as it goes. -/
def slideUp (this : Run α) (after : List (Run α)) : List (Run α) → Opened α
  | [] => ⟨[], this, after⟩
  | last :: before =>
    match last.change with
    | .keep =>
      let n := if this.change = .add then suffixLength last.members this.members else 0
      if _h : n = 0 then
        if last.members.isEmpty then slideUp this after before else ⟨last :: before, this, after⟩
      else
        let stay := last.members.take (last.members.length - n)
        let moved := last.members.drop (last.members.length - n)
        let shifted : Run α :=
          ⟨this.change, moved ++ this.members.take (this.members.length - n)⟩
        slideUp shifted (keepBefore moved after) (runOf .keep stay ++ before)
    | change =>
      if change = this.change then slideUp ⟨change, last.members ++ this.members⟩ after before
      else slideUp this (last :: after) before
termination_by before => extent before
decreasing_by
  · simp
  · apply extent_runOf_append_lt
    by_cases hm : last.members = []
    · exact .inr (by simp [hm])
    · refine .inl ?_
      have := List.length_pos_iff.2 hm
      simp only [List.length_take]
      omega
  · simp
  · simp

/-- The open run moved down as far as it goes. -/
def slideDown (before : List (Run α)) (this : Run α) : List (Run α) → Opened α
  | [] => ⟨before, this, []⟩
  | next :: after =>
    match next.change with
    | .keep =>
      let n := if this.change = .add then prefixLength next.members this.members else 0
      if _h : n = 0 then
        if next.members.isEmpty then slideDown before this after else ⟨before, this, next :: after⟩
      else
        let moved := next.members.take n
        let stay := next.members.drop n
        let shifted : Run α := ⟨this.change, this.members.drop n ++ moved⟩
        slideDown (keepBehind moved before) shifted (runOf .keep stay ++ after)
    | change =>
      if change = this.change then slideDown before ⟨change, this.members ++ next.members⟩ after
      else slideDown (next :: before) this after
termination_by after => extent after
decreasing_by
  · simp
  · apply extent_runOf_append_lt
    by_cases hm : next.members = []
    · exact .inr (by simp [hm])
    · refine .inl ?_
      have := List.length_pos_iff.2 hm
      simp only [List.length_drop]
      omega
  · simp
  · simp

/-- Every run of one kind moved up and then down, from the first to the last. A step leaves at
least one more member behind, so `fuel` need not exceed the number of runs and members. -/
def settle (change : Change) (before : List (Run α)) : List (Run α) → Nat → List (Run α)
  | [], _ => before.reverse
  | after, 0 => before.reverse ++ after
  | this :: after, fuel + 1 =>
    if this.change = change then
      let up := slideUp this after before
      let down := slideDown up.before up.this up.after
      settle change (down.this :: down.before) down.after fuel
    else settle change (this :: before) after fuel

/-- Removals moved first, additions next. -/
def compact (rs : List (Run α)) : List (Run α) :=
  let removed := settle .remove [] rs (extent rs)
  settle .add [] removed (extent removed)

end PugSize.LineDiff
