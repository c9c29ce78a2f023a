import PugSize.LineDiff.Run
import PugSize.LineDiff.Midpoint

/-!
An edit script between two lists: what they begin and end with in common is kept, and the rest is
cut at a midpoint into two smaller searches.
-/

namespace PugSize.LineDiff

variable {α : Type} [BEq α]

/-- The runs for two lists. Without a midpoint strictly inside, all of the old members are removed
and all of the new ones added. -/
def search (old new : List α) : List (Run α) :=
  let first := prefixLength old new
  let oldRest := old.drop first
  let newRest := new.drop first
  let last := suffixLength oldRest newRest
  let oldCore := oldRest.take (oldRest.length - last)
  let newCore := newRest.take (newRest.length - last)
  let core :=
    if oldCore.isEmpty ∨ newCore.isEmpty then runOf .remove oldCore ++ runOf .add newCore
    else
      match midpoint? oldCore newCore with
      | none => runOf .remove oldCore ++ runOf .add newCore
      | some (x, y) =>
        if _h : x ≤ oldCore.length ∧ y ≤ newCore.length ∧ 0 < x + y ∧
            x + y < oldCore.length + newCore.length then
          search (oldCore.take x) (newCore.take y) ++ search (oldCore.drop x) (newCore.drop y)
        else runOf .remove oldCore ++ runOf .add newCore
  runOf .keep (old.take first) ++ core ++ runOf .keep (oldRest.drop (oldRest.length - last))
termination_by old.length + new.length
decreasing_by
  all_goals
    simp only [oldCore, newCore, oldRest, newRest, List.length_take, List.length_drop] at *
    omega

end PugSize.LineDiff
