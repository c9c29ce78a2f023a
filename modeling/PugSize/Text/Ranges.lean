/-!
Sets of characters given as closed ranges of code points.
-/

namespace PugSize.Text

/-- Closed ranges of code points. -/
abbrev Ranges := List (Nat × Nat)

def Ranges.contains (rs : Ranges) (c : Char) : Bool :=
  rs.any fun (lo, hi) => lo ≤ c.toNat && c.toNat ≤ hi

end PugSize.Text
