import PugSize.CommandLine.Argument
import PugSize.Image.Size
import PugSize.Document.Position
import PugSize.Number.Notation

/-!
What a command line asks for. Arguments are taken in order, and the first that is wrong, or that
asks for help or for the version, decides.
-/

namespace PugSize.CommandLine

/-- What becomes of an edit. -/
inductive Output
  /-- It is shown and written to the file. -/
  | apply
  | preview
  | json
deriving DecidableEq

structure InsertOptions where
  file : String
  line : Nat
  column : Nat
  output : Output
  overwrite : Option Bool
  root : Option String
  config : Option String
  mixins : List String
deriving DecidableEq

structure Invocation where
  display : Display
  verbose : Bool
  options : InsertOptions
deriving DecidableEq

/-- Why there is nothing to run. -/
inductive Ending
  | help
  | version
  | misuse (cause : Misuse)
deriving DecidableEq

/-- Arguments taken so far. -/
structure Draft where
  switches : List Switch
  words : List String
  values : List (Parameter × String)

namespace Draft

def empty : Draft := ⟨[], [], []⟩

def values? (d : Draft) (p : Parameter) : List String :=
  (d.values.filter fun v => v.1 == p).map Prod.snd

def value? (d : Draft) (p : Parameter) : Option String := (d.values? p).head?

def number? (d : Draft) (p : Parameter) : Option Nat :=
  (d.value? p).bind fun v => word? v.toList

/-- Whether a parameter can have a value. -/
def admits (p : Parameter) (value : String) : Bool :=
  match p with
  | .line | .column => (word? value.toList).isSome
  | .root | .config => !value.isEmpty
  | .mixin => true

/-- Takes one argument. Only mixin names may be given several times. -/
def take (d : Draft) : Except Misuse Argument → Except Ending Draft
  | .error cause => throw (.misuse cause)
  | .ok (.switch .help) => throw .help
  | .ok (.switch .version) => throw .version
  | .ok (.switch s) =>
    if s ∈ d.switches then throw (.misuse (.repeated s.name))
    else pure { d with switches := s :: d.switches }
  | .ok (.parameter p value) =>
    if !admits p value then throw (.misuse (.invalidValue p.name value))
    else if p ≠ .mixin ∧ (d.value? p).isSome then throw (.misuse (.repeated p.name))
    else pure { d with values := d.values ++ [(p, value)] }
  | .ok (.word word) =>
    if !d.words.isEmpty then throw (.misuse (.unexpectedWord word))
    else if word = "" then throw (.misuse (.noValue "<FILE>"))
    else pure { d with words := [word] }

/-- Two switches that exclude each other, as a choice. -/
def choose {α : Type} (d : Draft) (s t : Switch) (ifFirst ifSecond ifNone : α) :
    Except Ending α :=
  match d.switches.contains s, d.switches.contains t with
  | true, true => throw (.misuse (.conflict s.name t.name))
  | true, false => pure ifFirst
  | false, true => pure ifSecond
  | false, false => pure ifNone

def finish (d : Draft) : Except Ending InsertOptions := do
  let some file := d.words.head? | throw (.misuse (.missing "<FILE>"))
  let some line := d.number? .line | throw (.misuse (.missing "--line <LINE>"))
  let output ← d.choose .json .dryRun .json .preview .apply
  let overwrite ← d.choose .overwrite .noOverwrite (some true) (some false) none
  return {
    file
    line
    column := (d.number? .column).getD 1
    output
    overwrite
    root := d.value? .root
    config := d.value? .config
    mixins := d.values? .mixin }

end Draft

/-- The options before the command. -/
def mainGrammar : Grammar := ⟨[.verbose, .help, .version], []⟩

/-- The options of the commands. -/
def insertGrammar : Grammar where
  switches := [.verbose, .help, .dryRun, .json, .overwrite, .noOverwrite]
  parameters := [.line, .column, .root, .config, .mixin]

def commands : List (String × Display) := [("full", .full), ("half", .half)]

/-- Asking for help on a command by name. -/
def helpOn : List String → Ending
  | [] => .help
  | word :: rest =>
    if word ∈ "help" :: commands.map Prod.fst then
      match rest with
      | [] => .help
      | other :: _ => .misuse (.unknownCommand other)
    else .misuse (.unknownCommand word)

def ofCommand (verbose : Bool) (display : Display) (words : List String) :
    Except Ending Invocation := do
  let d ← (insertGrammar.arguments words).foldlM Draft.take .empty
  let options ← d.finish
  return { display, verbose := verbose || d.switches.contains .verbose, options }

/-- Reads the words from the first command on; `d` holds what came before. -/
def readFrom (d : Draft) : List String → Except Ending Invocation
  | [] => throw (.misuse .noCommand)
  | word :: rest =>
    match commands.lookup word with
    | some display => ofCommand (d.switches.contains .verbose) display rest
    | none =>
      if word = "help" then throw (helpOn rest)
      else match mainGrammar.options? word with
        | none => throw (.misuse (.unknownCommand word))
        | some found =>
          match found.arguments.foldlM Draft.take d with
          | .ok d => readFrom d rest
          | .error ending => throw ending

def read (words : List String) : Except Ending Invocation := readFrom .empty words

/-- The place that the options name, or what is wrong with them. Lines and columns are counted
from one. -/
def InsertOptions.cursor (o : InsertOptions) : Except String Position :=
  if o.line = 0 then .error "--line is 1-based"
  else if o.column = 0 then .error "--column is 1-based"
  else .ok ⟨o.line - 1, o.column - 1⟩

end PugSize.CommandLine
