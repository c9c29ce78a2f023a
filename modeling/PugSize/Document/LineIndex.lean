import PugSize.Document.Buffer

/-!
A document together with the offsets at which its lines begin. They are found once for a text, so that a
line is cut out at its offsets, and the offset of a place is found without parting the text into lines.
-/

namespace PugSize

structure IndexedBuffer where
  buffer : Buffer
  starts : List Nat

/-- An exchange of the stretch between two places. -/
structure Exchange where
  start : Position
  stop : Position
  new : Text

namespace Buffer

/-- The document after an exchange, or as it was if the places name no stretch of it. -/
def exchanged (b : Buffer) (e : Exchange) : Buffer :=
  match b.replace e.start e.stop e.new with
  | .ok b' => b'
  | .error _ => b

end Buffer

namespace IndexedBuffer

/-- The offsets behind the line feeds of a text that begins at an offset. -/
def startsBehind (offset : Nat) : Text → List Nat
  | [] => []
  | c :: cs =>
    if c = '\n' then (offset + c.utf8Size) :: startsBehind (offset + c.utf8Size) cs
    else startsBehind (offset + c.utf8Size) cs

/-- The offsets at which the lines of a text begin. -/
def lineStarts (t : Text) : List Nat := 0 :: startsBehind 0 t

def ofBuffer (b : Buffer) : IndexedBuffer := ⟨b, lineStarts b.text⟩

/-- The end of a line, before the line feed that ends it. -/
def lineEnd (b : IndexedBuffer) (i : Nat) : Nat :=
  match b.starts[i + 1]? with
  | some next => next - 1
  | none => b.buffer.text.width

/-- A line cut out between its start and its end, without its terminator. -/
def line? (b : IndexedBuffer) (i : Nat) : Option Text :=
  b.starts[i]?.map fun start => Text.stripReturn (b.buffer.text.slice ⟨start, b.lineEnd i⟩)

/-- The offset of a place. A character behind the end of the line counts as the end. -/
def offsetOf (b : IndexedBuffer) (p : Position) : Except RangeError Nat :=
  match b.starts[p.line]?, b.line? p.line with
  | some start, some l => .ok (start + Text.width (l.take p.character))
  | _, _ => .error (.lineOutOfRange p.line b.starts.length)

/-- The stretch between two places exchanged, and the lines of the new text found. -/
def replace (b : IndexedBuffer) (e : Exchange) : Except RangeError IndexedBuffer := do
  let first ← b.offsetOf e.start
  let last ← b.offsetOf e.stop
  if last < first then .error (.reversed e.start e.stop)
  else
    let text := b.buffer.text.splice ⟨first, last⟩ (b.buffer.adapt e.new)
    .ok ⟨{ b.buffer with text }, lineStarts text⟩

/-- The document after an exchange, or as it was if the places name no stretch of it. -/
def exchanged (b : IndexedBuffer) (e : Exchange) : IndexedBuffer :=
  match b.replace e with
  | .ok b' => b'
  | .error _ => b

end IndexedBuffer
end PugSize
