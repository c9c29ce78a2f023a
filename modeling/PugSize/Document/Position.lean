import PugSize.Text.Basic

/-!
Places in a document, as a line and a character of it, both counted from zero.
-/

namespace PugSize

structure Position where
  line : Nat
  character : Nat
deriving DecidableEq, Repr

namespace Position

/-- Places are ordered by line, and on one line by character. -/
def le (p q : Position) : Bool :=
  p.line < q.line || (p.line == q.line && p.character ≤ q.character)

/-- The place behind a text that begins at the given place. -/
def advance (p : Position) : Text → Position
  | [] => p
  | c :: cs =>
    if c = '\n' then advance ⟨p.line + 1, 0⟩ cs else advance ⟨p.line, p.character + 1⟩ cs

/-- Readers count from one. -/
def display (p : Position) : String := s!"{p.line + 1}:{p.character + 1}"

end Position
end PugSize
