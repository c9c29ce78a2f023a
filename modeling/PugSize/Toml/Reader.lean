import PugSize.Toml.Scan

/-!
Reading of whole configuration files. Entries are put into tables as they come; a table that was
made for one purpose cannot be made again for another, so the tables under construction note where
they come from.
-/

namespace PugSize.Toml

/-- How a table came to be: under its own header, on the way to another header, or on the way of a
dotted key. -/
inductive Origin
  | header | passed | dotted
deriving DecidableEq

/-- Something under construction. -/
inductive Draft
  | value (v : Value)
  | table (origin : Origin) (entries : List (Text × Draft))
  /-- Tables under a repeated header, the last one first. -/
  | tables (items : List (List (Text × Draft)))
deriving Inhabited

/-- The entries of a table under construction, the last one first. -/
abbrev Entries := List (Text × Draft)

/-- Entries with one of them exchanged in place, or added. -/
def putEntry (key : Text) (d : Draft) : Entries → Entries
  | [] => [(key, d)]
  | (k, old) :: rest => if k = key then (k, d) :: rest else (k, old) :: putEntry key d rest

/-- Changes the table that a path leads to on the way to a header, making tables as needed. -/
def atPath (change : Entries → Option Entries) : List Text → Entries → Option Entries
  | [], es => change es
  | key :: path, es =>
    match es.lookup key with
    | none => (atPath change path []).map fun inner => putEntry key (.table .passed inner) es
    | some (.table origin inner) =>
      (atPath change path inner).map fun inner => putEntry key (.table origin inner) es
    | some (.tables (last :: before)) =>
      (atPath change path last).map fun last => putEntry key (.tables (last :: before)) es
    | some _ => none

/-- A table made under its own header. -/
def openTable (key : Text) (es : Entries) : Option Entries :=
  match es.lookup key with
  | none => some (putEntry key (.table .header []) es)
  | some (.table .passed inner) => some (putEntry key (.table .header inner) es)
  | some _ => none

/-- A table added under a repeated header. -/
def addTable (key : Text) (es : Entries) : Option Entries :=
  match es.lookup key with
  | none => some (putEntry key (.tables [[]]) es)
  | some (.tables items) => some (putEntry key (.tables ([] :: items)) es)
  | some _ => none

/-- A value put under a dotted key. The table that holds it must be made by dotted keys alone; those
on the way to it only must not have headers of their own. -/
def putDotted (v : Value) (es : Entries) : List Text → Option Entries
  | [] => none
  | [key] => if (es.lookup key).isSome then none else some (putEntry key (.value v) es)
  | key :: path =>
    let passing := 2 ≤ path.length
    match es.lookup key with
    | none => (putDotted v [] path).map fun inner => putEntry key (.table .dotted inner) es
    | some (.table .dotted inner) =>
      (putDotted v inner path).map fun inner => putEntry key (.table .dotted inner) es
    | some (.table .passed inner) =>
      if passing then
        (putDotted v inner path).map fun inner => putEntry key (.table .passed inner) es
      else none
    | some (.tables (last :: before)) =>
      if passing then
        (putDotted v last path).map fun last => putEntry key (.tables (last :: before)) es
      else none
    | some _ => none

/-- Entries of a finished table in the order of their keys. -/
def sortEntries {α : Type} (es : List (Text × α)) : List (Text × α) :=
  es.mergeSort fun a b => !decide (b.1 < a.1)

mutual

def Draft.finish : Draft → Value
  | .value v => v
  | .table _ es => .table (sortEntries (finishEntries es))
  | .tables items => .array (finishTables items).reverse

def finishEntries : List (Text × Draft) → List (Text × Value)
  | [] => []
  | (key, d) :: rest => (key, d.finish) :: finishEntries rest

def finishTables : List (List (Text × Draft)) → List Value
  | [] => []
  | es :: rest => .table (sortEntries (finishEntries es)) :: finishTables rest

end

open Read

/-- One part of a key: bare, or a string on one line. -/
def simpleKey (fuel : Nat) : Read Text := do
  if ← skip? ['"'] then basicRest fuel
  else if ← skip? ['\''] then literalRest
  else
    let key ← takeWhile isBareKeyChar
    if key.isEmpty then fail
    return key

/-- The parts of a key between points. -/
def dottedKey : Nat → Read (List Text)
  | 0 => fail
  | fuel + 1 => do
    let key ← simpleKey fuel
    let _ ← takeWhile isSpace
    if ← skip? ['.'] then
      let _ ← takeWhile isSpace
      return key :: (← dottedKey fuel)
    else return [key]

mutual

/-- A value of any kind. `fuel` bounds the depth and the number of steps. -/
def value : Nat → Read Value
  | 0 => fail
  | fuel + 1 => do
    match ← string? fuel with
    | some t => return .string t
    | none =>
      if ← skip? ['['] then return .array (← items fuel)
      else if ← skip? ['{'] then
        return (Draft.table .header (← inlineEntries fuel [])).finish
      else bareValue

/-- The rest of an array. -/
def items : Nat → Read (List Value)
  | 0 => fail
  | fuel + 1 => do
    blankLines fuel
    if ← skip? [']'] then return []
    else
      let v ← value fuel
      blankLines fuel
      if ← skip? [','] then return v :: (← items fuel)
      else
        skip [']']
        return [v]

/-- The rest of a table in braces. -/
def inlineEntries : Nat → Entries → Read Entries
  | 0, _ => fail
  | fuel + 1, es => do
    blankLines fuel
    if ← skip? ['}'] then return es
    else
      let es ← entry fuel es
      blankLines fuel
      if ← skip? [','] then inlineEntries fuel es
      else
        skip ['}']
        return es

/-- An entry, put among those read before. -/
def entry : Nat → Entries → Read Entries
  | 0, _ => fail
  | fuel + 1, es => do
    let key ← dottedKey fuel
    skip ['=']
    let _ ← takeWhile isSpace
    let v ← value fuel
    match putDotted v es key with
    | some es => return es
    | none => fail

end

/-- The end of a line: white space and a comment. -/
def lineEnd : Read Unit := do
  let _ ← takeWhile isSpace
  comment
  match ← get with
  | [] => return
  | _ => unless ← lineFeed? do fail

/-- The path of a header behind its opening brackets, through its closing ones. -/
def headerPath (closing : Text) (fuel : Nat) : Read (List Text) := do
  let _ ← takeWhile isSpace
  let path ← dottedKey fuel
  skip closing
  return path

/-- The tables after a header. -/
def withHeader (repeated : Bool) (path : List Text) (root : Entries) : Option Entries :=
  path.getLast?.bind fun key =>
    atPath (if repeated then addTable key else openTable key) path.dropLast root

/-- Entries put into the table that the last header named. -/
def changeAt (path : List Text) (root : Entries) (read : Entries → Read Entries) : Read Entries :=
  fun t =>
    let rec go : List Text → Entries → Option (Entries × Text)
      | [], es => read es t
      | key :: path, es =>
        match es.lookup key with
        | some (.table origin inner) =>
          (go path inner).map fun (inner, rest) => (putEntry key (.table origin inner) es, rest)
        | some (.tables (last :: before)) =>
          (go path last).map fun (last, rest) => (putEntry key (.tables (last :: before)) es, rest)
        | _ => none
    go path root

/-- The lines of a file, read into the tables of those before. `here` is the path of the last
header. -/
def lines (here : List Text) (root : Entries) : Nat → Read Entries
  | 0 => fail
  | fuel + 1 => do
    let _ ← takeWhile isSpace
    match ← get with
    | [] => return root
    | '[' :: '[' :: rest =>
      set rest
      let path ← headerPath [']', ']'] fuel
      lineEnd
      match withHeader true path root with
      | some root => lines path root fuel
      | none => fail
    | '[' :: rest =>
      set rest
      let path ← headerPath [']'] fuel
      lineEnd
      match withHeader false path root with
      | some root => lines path root fuel
      | none => fail
    | c :: _ =>
      if c = '#' ∨ c = '\n' ∨ c = '\r' then
        lineEnd
        lines here root fuel
      else
        let root ← changeAt here root (entry fuel)
        lineEnd
        lines here root fuel

/-- The table that a file holds. A mark at the beginning is passed over. -/
def read? (t : Text) : Option (List (Text × Value)) :=
  let t := if t.head? = some '\ufeff' then t.drop 1 else t
  match (lines [] [] (t.length + 2)).run t with
  | some (root, _) => some (sortEntries (finishEntries root))
  | none => none

end PugSize.Toml
