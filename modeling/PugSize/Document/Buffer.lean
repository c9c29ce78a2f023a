import PugSize.Text.Lines
import PugSize.Document.Position

/-!
A document that is edited. Whether lines end with a carriage return is decided when the buffer is
made, and inserted text follows it.
-/

namespace PugSize

structure Buffer where
  text : Text
  crlf : Bool
deriving DecidableEq

/-- Why places name no stretch of a document. -/
inductive RangeError
  | lineOutOfRange (line count : Nat)
  | reversed (start stop : Position)
deriving DecidableEq

def RangeError.message : RangeError → String
  | .lineOutOfRange line count =>
    s!"Line {line + 1} is out of range (document has {count} lines)"
  | .reversed start stop => s!"Replace range {start.display}..{stop.display} is reversed"

namespace Buffer

/-- Whether a carriage return stands before some line feed. -/
def hasCrlf : Text → Bool
  | [] => false
  | c :: cs => (c == '\r' && cs.head? == some '\n') || hasCrlf cs

def ofText (t : Text) : Buffer := ⟨t, hasCrlf t⟩

/-- The lines with what is left of their terminators. -/
def rawLines (b : Buffer) : List Text := Text.splitLines b.text

def lineCount (b : Buffer) : Nat := b.rawLines.length

/-- A line without its terminator. -/
def line? (b : Buffer) (i : Nat) : Option Text := b.rawLines[i]?.map Text.stripReturn

/-- The width of lines that each end with a line feed. -/
def linesWidth : List Text → Nat
  | [] => 0
  | l :: ls => l.width + 1 + linesWidth ls

/-- The offset at which a line begins. -/
def lineStart (b : Buffer) (i : Nat) : Nat := linesWidth (b.rawLines.take i)

/-- The offset of a place. A character behind the end of the line counts as the end. -/
def offsetOf (b : Buffer) (p : Position) : Except RangeError Nat :=
  match b.line? p.line with
  | none => .error (.lineOutOfRange p.line b.lineCount)
  | some l => .ok (b.lineStart p.line + Text.width (l.take p.character))

/-- A text with carriage returns before line feeds removed. -/
def dropReturns : Text → Text
  | [] => []
  | c :: cs => if c = '\r' ∧ cs.head? = some '\n' then dropReturns cs else c :: dropReturns cs

/-- A text with a carriage return before every line feed. -/
def addReturns (t : Text) : Text := t.flatMap fun c => if c = '\n' then ['\r', '\n'] else [c]

/-- A text with the line ends of the document. -/
def adapt (b : Buffer) (t : Text) : Text := if b.crlf then addReturns (dropReturns t) else t

/-- The stretch between two places exchanged. -/
def replace (b : Buffer) (start stop : Position) (new : Text) : Except RangeError Buffer := do
  let first ← b.offsetOf start
  let last ← b.offsetOf stop
  if last < first then .error (.reversed start stop)
  else .ok { b with text := b.text.splice ⟨first, last⟩ (b.adapt new) }

end Buffer
end PugSize
