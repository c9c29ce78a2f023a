/-!
The point at which a shortest edit script between two arrays may be cut. Furthest points are
followed on every diagonal from both ends in turn, with one more edit each time, until a point from
one end passes a point from the other. `d` counts edits and `k` names a diagonal.
-/

namespace PugSize.LineDiff

variable {α : Type}

/-- Furthest points by diagonal; the first belongs to the diagonal `-radius`. -/
structure Frontier where
  radius : Nat
  points : Array Nat

namespace Frontier

def empty (radius : Nat) : Frontier := ⟨radius, Array.replicate (2 * radius + 1) 0⟩

def get (f : Frontier) (k : Int) : Nat := f.points.getD (k + f.radius).toNat 0

def set (f : Frontier) (k : Int) (x : Nat) : Frontier :=
  { f with points := f.points.setIfInBounds (k + f.radius).toNat x }

/-- Where the diagonal `k` is entered with the `d`-th edit. -/
def entry (f : Frontier) (d : Nat) (k : Int) : Nat :=
  if k = -d ∨ (k ≠ d ∧ f.get (k - 1) < f.get (k + 1)) then f.get (k + 1) else f.get (k - 1) + 1

end Frontier

/-- How many members are equal from `x` and `y` on, at most `fuel`. -/
def advance [BEq α] (old new : Array α) (x y : Nat) : Nat → Nat
  | 0 => 0
  | fuel + 1 =>
    match old[x]?, new[y]? with
    | some a, some b => if a == b then advance old new (x + 1) (y + 1) fuel + 1 else 0
    | _, _ => 0

/-- The diagonals that `d` edits reach, from the highest down. -/
def diagonals (d : Nat) : List Int := (List.range (d + 1)).map fun (i : Nat) => (d : Int) - 2 * (i : Int)

/-- How far a diagonal is equal from a point on it. -/
def slide [BEq α] (old new : Array α) (x : Nat) (y : Int) : Nat :=
  if 0 ≤ y then advance old new x y.toNat old.size else 0

/-- One round from the front. The result is a cut, if the frontier behind is passed. -/
def forward [BEq α] (old new : Array α) (behind : Frontier) (d : Nat) (front : Frontier) :
    List Int → Frontier × Option (Nat × Nat)
  | [] => (front, none)
  | k :: ks =>
    let delta : Int := old.size - new.size
    let x := front.entry d k
    let y := (x : Int) - k
    let x' := x + slide old new x y
    let front := front.set k x'
    if delta % 2 ≠ 0 ∧ ((k - delta).natAbs : Int) ≤ (d : Int) - 1 ∧
        x' + behind.get (-(k - delta)) ≥ old.size then
      (front, some (x, y.toNat))
    else forward old new behind d front ks

/-- One round from the back, with both arrays reversed. -/
def backward [BEq α] (old new : Array α) (front : Frontier) (d : Nat) (behind : Frontier) :
    List Int → Frontier × Option (Nat × Nat)
  | [] => (behind, none)
  | k :: ks =>
    let delta : Int := old.size - new.size
    let x := behind.entry d k
    let y := (x : Int) - k
    let step := slide old new x y
    let x' := x + step
    let behind := behind.set k x'
    if delta % 2 = 0 ∧ (k - delta).natAbs ≤ d ∧
        x' + front.get (-(k - delta)) ≥ old.size then
      (behind, some (old.size - x', new.size - (y + step).toNat))
    else backward old new front d behind ks

/-- Rounds from both ends, from the `d`-th edit on. -/
def rounds [BEq α] (old new oldBack newBack : Array α) (front behind : Frontier) (d : Nat) :
    Nat → Option (Nat × Nat)
  | 0 => none
  | fuel + 1 =>
    match forward old new behind d front (diagonals d) with
    | (_, some cut) => some cut
    | (front, none) =>
      match backward oldBack newBack front d behind (diagonals d) with
      | (_, some cut) => some cut
      | (behind, none) => rounds old new oldBack newBack front behind (d + 1) fuel

/-- How many members of each list stand before the cut. -/
def midpoint? [BEq α] (old new : List α) : Option (Nat × Nat) :=
  let limit := (old.length + new.length + 1) / 2 + 1
  let frontier := Frontier.empty (limit + 1)
  rounds old.toArray new.toArray old.reverse.toArray new.reverse.toArray frontier frontier 0 limit

end PugSize.LineDiff
