import PugSize.Number.Positional
import PugSize.Toml.Quoting
import PugSize.Toml.Value

/-!
Configuration files as they are written. Tables stand under headers of their own behind the
entries of the table they belong to, and an array of tables becomes repeated headers; everything
else is written as a value behind its key.
-/

namespace PugSize.Toml

def Value.isTable : Value → Bool
  | .table _ => true
  | _ => false

/-- An array of tables and of nothing else. -/
def Value.isTableArray : Value → Bool
  | .array items => !items.isEmpty && items.all isTable
  | _ => false

/-- The turn of a value among the entries of its table: plain values go first, then arrays with
tables in them, then tables. -/
def Value.turn : Value → Nat
  | .table _ => 2
  | .array items => if items.any isTable then 1 else 0
  | _ => 0

/-- Things in the order of their turns. -/
def byTurn {α : Type} (xs : List (Nat × α)) : List α :=
  [0, 1, 2].flatMap fun turn => (xs.filter fun x => x.1 == turn).map Prod.snd

/-- Values between brackets. Several stand on a line each. -/
def bracketed : List Text → Text
  | [] => "[]".toList
  | [one] => '[' :: one ++ [']']
  | several =>
    '[' :: '\n' :: (several.flatMap fun v => "    ".toList ++ v ++ [',', '\n']) ++ [']']

/-- Entries between braces. -/
def braced : List Text → Text
  | [] => ['{', '}']
  | entries => "\x7b ".toList ++ List.intercalate ", ".toList entries ++ " \x7d".toList

def entryText (key : Text) (value : Text) : Text := quoteKey key ++ " = ".toList ++ value

mutual

/-- A value behind its key. -/
def Value.text : Value → Text
  | .string t => quoteString t
  | .integer n => (toString n).toList
  | .float x => x.positional
  | .boolean b => (toString b).toList
  | .dateTime d => d.text.toList
  | .array items => bracketed (itemTexts items)
  | .table entries => braced (byTurn (entryTexts entries))

def itemTexts : List Value → List Text
  | [] => []
  | v :: vs => v.text :: itemTexts vs

def entryTexts : List (Text × Value) → List (Nat × Text)
  | [] => []
  | (key, v) :: rest => (v.turn, entryText key v.text) :: entryTexts rest

end

/-- A header with the lines below it. -/
structure Block where
  path : List Text
  repeated : Bool
  lines : List Text
deriving DecidableEq

/-- What an entry contributes to the block of its table: a line, or blocks of its own. -/
inductive Part
  | line (t : Text)
  | blocks (bs : List Block)

def Part.line? : Part → Option Text
  | .line t => some t
  | .blocks _ => none

def Part.blockList : Part → List Block
  | .line _ => []
  | .blocks bs => bs

/-- The blocks of a table. A table that only leads to others needs no header. -/
def tableBlocks (path : List Text) (repeated : Bool) (parts : List Part) : List Block :=
  let lines := parts.filterMap Part.line?
  let inner := parts.flatMap Part.blockList
  if lines.isEmpty && !inner.isEmpty && !repeated then inner
  else ⟨path, repeated, lines⟩ :: inner

mutual

/-- What a value contributes under a path that leads to it. -/
def Value.part (path : List Text) (key : Text) : Value → Part
  | .table entries => .blocks (tableBlocks path false (byTurn (entryParts path entries)))
  | .array items =>
    if (Value.array items).isTableArray then .blocks (repeatedBlocks path items)
    else .line (entryText key (Value.array items).text)
  | v => .line (entryText key v.text)

def entryParts (path : List Text) : List (Text × Value) → List (Nat × Part)
  | [] => []
  | (key, v) :: rest => (v.turn, v.part (path ++ [key]) key) :: entryParts path rest

/-- The blocks of tables under a repeated header. -/
def repeatedBlocks (path : List Text) : List Value → List Block
  | [] => []
  | .table entries :: rest =>
    tableBlocks path true (byTurn (entryParts path entries)) ++ repeatedBlocks path rest
  | _ :: rest => repeatedBlocks path rest

end

def Block.header (b : Block) : Text :=
  let path := List.intercalate ['.'] (b.path.map quoteKey)
  if b.repeated then "[[".toList ++ path ++ "]]".toList else ['['] ++ path ++ [']']

def linesText (lines : List Text) : Text := lines.flatMap fun l => l ++ ['\n']

def Block.text (b : Block) : Text := linesText (b.header :: b.lines)

/-- The text of a file with the given entries, written in this order. -/
def render (entries : List (Text × Value)) : Text :=
  let parts := (entryParts [] entries).map Prod.snd
  let top := parts.filterMap Part.line?
  let first := if top.isEmpty then [] else [linesText top]
  List.intercalate ['\n'] (first ++ (parts.flatMap Part.blockList).map Block.text)

end PugSize.Toml
