import PugSize.LineDiff.Search
import PugSize.LineDiff.Slide

/-!
The changed lines of a text in hunks. A hunk shows changes that are close together, with up to two
unchanged lines before, between and after them; unchanged and added lines are numbered as in the
new text, removed ones as in the old.
-/

namespace PugSize.LineDiff

/-- A line of a hunk, counted from zero. -/
structure HunkLine (α : Type) where
  change : Change
  index : Nat
  line : α
deriving Repr

/-- Unchanged lines, or the removed and the added lines of one change. -/
inductive Block (α : Type)
  | same (lines : List (HunkLine α))
  | changed (lines : List (HunkLine α))

variable {α : Type}

/-- The lines of a run, from an index on. -/
def number (change : Change) (index : Nat) : List α → List (HunkLine α)
  | [] => []
  | a :: as => ⟨change, index, a⟩ :: number change (index + 1) as

/-- A change that is not yet ended, and where it begins in both texts. -/
structure Pending (α : Type) where
  removed : List α
  added : List α

def Pending.none : Pending α := ⟨[], []⟩

/-- The block of a pending change that ends at the given indices, if there is one. -/
def Pending.block (p : Pending α) (oldIndex newIndex : Nat) : List (Block α) :=
  if p.removed.isEmpty && p.added.isEmpty then []
  else [.changed
    (number .remove (oldIndex - p.removed.length) p.removed ++
      number .add (newIndex - p.added.length) p.added)]

/-- Runs of kept members next to each other made one. -/
def joinKept : List (Run α) → List (Run α)
  | [] => []
  | r :: rs => if r.change = .keep then keepBefore r.members (joinKept rs) else r :: joinKept rs

/-- The blocks of a script from the given indices on. Runs of changes without kept members between
them are one change. -/
def blocks (oldIndex newIndex : Nat) (pending : Pending α) : List (Run α) → List (Block α)
  | [] => pending.block oldIndex newIndex
  | r :: rs =>
    let n := r.members.length
    match r.change with
    | .keep =>
      pending.block oldIndex newIndex ++
        .same (number .keep newIndex r.members) ::
          blocks (oldIndex + n) (newIndex + n) Pending.none rs
    | .remove => blocks (oldIndex + n) newIndex ⟨pending.removed ++ r.members, pending.added⟩ rs
    | .add => blocks oldIndex (newIndex + n) ⟨pending.removed, pending.added ++ r.members⟩ rs

/-- The unchanged lines shown around a change. -/
def contextSize : Nat := 2

/-- Unchanged lines at the beginning cut to those before the first change. -/
def trimFirst : List (Block α) → List (Block α)
  | .same lines :: rest => .same (lines.drop (lines.length - contextSize)) :: rest
  | bs => bs

/-- Unchanged lines at the end cut to those behind the last change. -/
def trimLast : List (Block α) → List (Block α)
  | [] => []
  | [.same lines] => [.same (lines.take contextSize)]
  | b :: bs => b :: trimLast bs

def Block.lines : Block α → List (HunkLine α)
  | .same lines | .changed lines => lines

/-- Blocks put into hunks, of which the open one holds `hunk`. A long stretch of unchanged lines
ends a hunk and begins the next one. -/
def group (hunk : List (Block α)) : List (Block α) → List (List (Block α))
  | [] =>
    match hunk with
    | [] | [.same _] => []
    | _ => [hunk]
  | .same lines :: rest =>
    if lines.length > 2 * contextSize then
      (hunk ++ [.same (lines.take contextSize)]) ::
        group [.same (lines.drop (lines.length - contextSize))] rest
    else group (hunk ++ [.same lines]) rest
  | b :: rest => group (hunk ++ [b]) rest

/-- The hunks of the changes between two lists. -/
def hunks [BEq α] (old new : List α) : List (List (HunkLine α)) :=
  let all := blocks 0 0 Pending.none (joinKept (compact (search old new)))
  (group [] (trimLast (trimFirst all))).map fun hunk => hunk.flatMap Block.lines

end PugSize.LineDiff
