import PugSize.Text.Basic
import PugSize.Number.Binary
import PugSize.Toml.DateTime

/-!
Values of configuration files. A table lists its entries in the order of their keys.
-/

namespace PugSize.Toml

inductive Value
  | string (t : Text)
  | integer (n : Int)
  | float (x : Binary)
  | boolean (b : Bool)
  | dateTime (d : DateTime)
  | array (items : List Value)
  | table (entries : List (Text × Value))
deriving Inhabited

mutual

/-- Whether all whole numbers in a value fit in 64 bits. -/
def Value.isNarrow : Value → Bool
  | .integer n => -Int.pow 2 63 ≤ n && n < Int.pow 2 63
  | .array items => allNarrow items
  | .table entries => entriesNarrow entries
  | _ => true

def allNarrow : List Value → Bool
  | [] => true
  | v :: vs => v.isNarrow && allNarrow vs

def entriesNarrow : List (Text × Value) → Bool
  | [] => true
  | (_, v) :: rest => v.isNarrow && entriesNarrow rest

end

end PugSize.Toml
