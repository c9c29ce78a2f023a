/-!
The words of a command line as arguments. A word with two hyphens names one option, which may have
its value behind an equals sign; a word with one hyphen is a row of one-letter options, of which
the last may have its value right behind it. Else the value is the next word. Two hyphens alone end
the options.
-/

namespace PugSize.CommandLine

/-- An option without a value. -/
inductive Switch
  | verbose | help | version | dryRun | json | overwrite | noOverwrite
deriving DecidableEq

/-- An option with a value. -/
inductive Parameter
  | line | column | root | config | mixin
deriving DecidableEq

def Switch.name : Switch → String
  | .verbose => "verbose"
  | .help => "help"
  | .version => "version"
  | .dryRun => "dry-run"
  | .json => "json"
  | .overwrite => "overwrite"
  | .noOverwrite => "no-overwrite"

def Switch.letter? : Switch → Option Char
  | .verbose => some 'v'
  | .help => some 'h'
  | .version => some 'V'
  | _ => none

def Parameter.name : Parameter → String
  | .line => "line"
  | .column => "column"
  | .root => "root"
  | .config => "config"
  | .mixin => "mixin"

def Parameter.letter? : Parameter → Option Char
  | .line => some 'l'
  | .column => some 'c'
  | _ => none

/-- Why a command line is not understood. -/
inductive Misuse
  | unknownOption (name : String)
  | unexpectedWord (word : String)
  | unexpectedValue (name : String)
  | noValue (name : String)
  | invalidValue (name value : String)
  | repeated (name : String)
  | conflict (name other : String)
  | missing (name : String)
  | unknownCommand (word : String)
  | noCommand
deriving DecidableEq

def Misuse.message : Misuse → String
  | .unknownOption name => s!"unexpected argument '{name}' found"
  | .unexpectedWord word => s!"unexpected argument '{word}' found"
  | .unexpectedValue name => s!"unexpected value for '--{name}' found"
  | .noValue name => s!"a value is required for '{name}' but none was supplied"
  | .invalidValue name value => s!"invalid value '{value}' for '--{name}'"
  | .repeated name => s!"the argument '--{name}' cannot be used multiple times"
  | .conflict name other => s!"the argument '--{name}' cannot be used with '--{other}'"
  | .missing name => s!"the required argument {name} was not provided"
  | .unknownCommand word => s!"unrecognized subcommand '{word}'"
  | .noCommand => "a subcommand is required"

inductive Argument
  | switch (s : Switch)
  | parameter (p : Parameter) (value : String)
  | word (w : String)
deriving DecidableEq

/-- The options that are known in some place. -/
structure Grammar where
  switches : List Switch
  parameters : List Parameter

/-- What an option word amounts to: arguments, and at the end perhaps an option whose value is the
next word. -/
structure Options where
  arguments : List (Except Misuse Argument)
  pending : Option Parameter

namespace Grammar

/-- The option with a name, and its value if one stands behind an equals sign. -/
def ofName (g : Grammar) (name : String) (value : Option String) : Options :=
  match g.switches.find? fun s => s.name == name with
  | some s => ⟨[if value.isSome then .error (.unexpectedValue name) else .ok (.switch s)], none⟩
  | none =>
    match g.parameters.find? fun p => p.name == name, value with
    | some p, some v => ⟨[.ok (.parameter p v)], none⟩
    | some p, none => ⟨[], some p⟩
    | none, _ => ⟨[.error (.unknownOption ("--" ++ name))], none⟩

/-- The options of a row of letters. -/
def ofLetters (g : Grammar) : List Char → Options
  | [] => ⟨[], none⟩
  | c :: cs =>
    match g.switches.find? fun s => s.letter? == some c with
    | some s =>
      let more := ofLetters g cs
      { more with arguments := .ok (.switch s) :: more.arguments }
    | none =>
      match g.parameters.find? fun p => p.letter? == some c, cs with
      | some p, [] => ⟨[], some p⟩
      | some p, '=' :: value => ⟨[.ok (.parameter p (String.ofList value))], none⟩
      | some p, value => ⟨[.ok (.parameter p (String.ofList value))], none⟩
      | none, _ => ⟨[.error (.unknownOption (String.ofList ['-', c]))], none⟩

/-- The options of a word, or none if it is not an option word. -/
def options? (g : Grammar) (word : String) : Option Options :=
  match word.toList with
  | ['-'] => none
  | '-' :: '-' :: rest =>
    let name := rest.takeWhile (· != '=')
    let value := (rest.drop name.length).tail?
    some (g.ofName (String.ofList name) (value.map String.ofList))
  | '-' :: letters => some (g.ofLetters letters)
  | _ => none

/-- The arguments that words stand for, as far as they are understood. -/
def arguments (g : Grammar) : List String → List (Except Misuse Argument)
  | [] => []
  | word :: rest =>
    if word = "--" then rest.map fun w => .ok (.word w)
    else match g.options? word with
      | none => .ok (.word word) :: arguments g rest
      | some ⟨found, none⟩ => found ++ arguments g rest
      | some ⟨found, some p⟩ =>
        match rest with
        | [] => found ++ [.error (.noValue p.name)]
        | value :: rest =>
          if (g.options? value).isSome then found ++ [.error (.noValue p.name)]
          else found ++ .ok (.parameter p value) :: arguments g rest

end Grammar
end PugSize.CommandLine
