/-!
Edit scripts between two lists. A script is made of runs of kept, removed and added members, each
run with its members, so the two lists can be read off it.
-/

namespace PugSize.LineDiff

inductive Change
  | keep | remove | add
deriving DecidableEq, Repr

structure Run (α : Type) where
  change : Change
  members : List α
deriving Repr

variable {α : Type}

/-- The members that a run has in the old list. -/
def Run.old (r : Run α) : List α := if r.change = .add then [] else r.members

/-- The members that a run has in the new list. -/
def Run.new (r : Run α) : List α := if r.change = .remove then [] else r.members

/-- The old list of a script. -/
def oldSide (rs : List (Run α)) : List α := rs.flatMap Run.old

/-- The new list of a script. -/
def newSide (rs : List (Run α)) : List α := rs.flatMap Run.new

/-- A run, unless it has no members. -/
def runOf (change : Change) (members : List α) : List (Run α) :=
  if members.isEmpty then [] else [⟨change, members⟩]

/-- The length of the longest common beginning. -/
def prefixLength [BEq α] : List α → List α → Nat
  | a :: as, b :: bs => if a == b then prefixLength as bs + 1 else 0
  | _, _ => 0

/-- The length of the longest common end. -/
def suffixLength [BEq α] (as bs : List α) : Nat := prefixLength as.reverse bs.reverse

end PugSize.LineDiff
