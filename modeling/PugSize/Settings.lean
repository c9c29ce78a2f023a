import PugSize.Mixin.Registry
import PugSize.Toml.Reader
import PugSize.Toml.Render
import PugSize.Workspace.FileTree

/-!
The settings of a workspace. A file that is named on purpose goes before the file of the workspace,
and that before the file of the user, which is made if it is missing and completed otherwise. How the
files are read and printed is up to the format.
-/

namespace PugSize

/-- How tables are read from the text of a file, and how they are printed. -/
structure Toml.Format where
  read? : Text → Option (List (Text × Toml.Value))
  render : List (Text × Toml.Value) → Text

/-- The format that the program runs with. -/
def Toml.standard : Toml.Format := ⟨Toml.read?, Toml.render⟩

structure Settings where
  /-- The directory below the workspace that image paths lead on from. -/
  imagesRoot : Text
  /-- Whether values that are present are replaced. -/
  overwrites : Bool
  /-- Whether images that are not below `imagesRoot` are looked for in the whole workspace. -/
  searchesWorkspace : Bool
  unsupportedExtensions : List Text
  /-- Entries of rules as they are written. -/
  ruleEntries : List Toml.Value

/-- Why settings cannot be loaded. -/
inductive SettingsError
  | unreadable (path : String)
  | malformed (path : String)
  /-- The file of the user is there but not readable. -/
  | userFile (cause : ReadFailure)
  /-- The directory for the file of the user cannot be made. -/
  | blocked
deriving DecidableEq

def SettingsError.message : SettingsError → String
  | .unreadable path => s!"Failed to read config file '{path}'"
  | .malformed path => s!"Failed to parse config file '{path}'"
  | .userFile cause => cause.message
  | .blocked => "File exists (os error 17)"

namespace Settings

open Toml (Value)

def default : Settings where
  imagesRoot := "app/assets/images".toList
  overwrites := true
  searchesWorkspace := true
  unsupportedExtensions := ["avif".toList]
  ruleEntries := Registry.starterEntries

def registry (s : Settings) : Registry := Registry.ofEntries s.ruleEntries

/-- A setting by its key, or the given value if it is absent. -/
def setting? {α : Type} (entries : List (Text × Value)) (key : String) (absent : α)
    (read : Value → Option α) : Option α :=
  match entries.lookup key.toList with
  | none => some absent
  | some v => read v

def string? : Value → Option Text
  | .string t => some t
  | _ => none

def boolean? : Value → Option Bool
  | .boolean b => some b
  | _ => none

def items? : Value → Option (List Value)
  | .array items => some items
  | _ => none

/-- Settings as a file has them. Absent ones are those of `default`, unknown ones are passed over,
and one of the wrong type spoils all. -/
def ofEntries? (entries : List (Text × Value)) : Option Settings := do
  let imagesRoot ← setting? entries "images_root" default.imagesRoot string?
  let overwrites ← setting? entries "overwrite_existing" default.overwrites boolean?
  let searchesWorkspace ← setting? entries "glob_fallback" default.searchesWorkspace boolean?
  let unsupportedExtensions ←
    setting? entries "unsupported_extensions" default.unsupportedExtensions fun v =>
      (items? v).bind fun items => items.mapM string?
  let ruleEntries ← setting? entries "target_rules" default.ruleEntries fun v =>
    (items? v).filter fun items => items.all Value.isNarrow
  pure { imagesRoot, overwrites, searchesWorkspace, unsupportedExtensions, ruleEntries }

/-- Settings with nothing blank in them. -/
def complete (s : Settings) : Settings :=
  { s with
    imagesRoot := if Text.isAllBlank s.imagesRoot then default.imagesRoot else s.imagesRoot
    ruleEntries := if s.ruleEntries.isEmpty then default.ruleEntries else s.ruleEntries }

def entries (s : Settings) : List (Text × Value) :=
  [("images_root".toList, .string s.imagesRoot),
   ("overwrite_existing".toList, .boolean s.overwrites),
   ("glob_fallback".toList, .boolean s.searchesWorkspace),
   ("unsupported_extensions".toList, .array (s.unsupportedExtensions.map .string)),
   ("target_rules".toList, .array s.ruleEntries)]

/-- The name of the file in a workspace. -/
def workspaceFile : String := ".mixsize.toml"

/-- The file below the directory of a user's settings. -/
def userFile : String := "mixsize/config.toml"

/-- The place of the file of a user. -/
def userPlace (directory : Place) : Place := directory ++ Path.names userFile

/-- Why there is no directory at a place, and none can be made: a file is there, or on the way. -/
def obstacle? (t : FileTree) (p : Place) : Option SettingsError :=
  if t.files.any fun (q, _) => q.isPrefixOf p && q.length < p.length then
    some (.userFile .notADirectory)
  else if (t.files.lookup p).isSome then some .blocked
  else none

/-- Loading settings: it may fail, and the files that were written so far outlive a failure. -/
abbrev Loading := ExceptT SettingsError (StateM FileTree.Writes)

/-- Settings that nothing is written for. -/
def taken (result : Except SettingsError Settings) : Loading Settings := ExceptT.mk (pure result)

section

variable (format : Toml.Format)

def readBy? (t : Text) : Option Settings :=
  (format.read? t).bind fun entries => (ofEntries? entries).map complete

/-- The text of a file with these settings. -/
def textBy (s : Settings) : Text := format.render s.entries

/-- Settings from the text of the file at a path. -/
def ofTextBy (path : String) (content : String) : Except SettingsError Settings :=
  match readBy? format content.toList with
  | some s => .ok s
  | none => .error (.malformed path)

def ofFileBy (t : FileTree) (home : Place) (path : String) : Except SettingsError Settings :=
  match t.readText home path with
  | .error _ => .error (.unreadable path)
  | .ok content => ofTextBy format path content

/-- Writes settings to a file. -/
def storeBy (s : Settings) (place : Place) : Loading Unit :=
  modify fun written => written ++ [(place, (String.ofList (s.textBy format)).toUTF8)]

/-- The settings of the user. Their file holds all of them afterwards. -/
def ofUserBy (t : FileTree) (directory : Place) : Loading Settings := do
  let place := userPlace directory
  if let some e := obstacle? t place.dropLast then throw e
  match t.entry place with
  | .absent =>
    storeBy format default place
    return default
  | .directory => throw (.userFile .isADirectory)
  | .file content =>
    match String.fromUTF8? content with
    | none => throw (.userFile .notText)
    | some present =>
      let s ← taken (ofTextBy format (Path.absolute place) present)
      if String.ofList (s.textBy format) ≠ present then storeBy format s place
      return s

/-- The steps that load the settings of a workspace at a path that leads on from `home`. -/
def stepsBy (t : FileTree) (home : Place) (root : String) (explicit : Option String)
    (userDirectory : Place) : Loading Settings :=
  match explicit with
  | some path => taken (ofFileBy format t home path)
  | none =>
    let path := Path.join root workspaceFile
    if t.isFile home path then taken (ofFileBy format t home path)
    else ofUserBy format t userDirectory

end

/-- Settings with the files that loading them writes. -/
structure Loaded where
  settings : Settings
  writes : FileTree.Writes

/-- The settings of a workspace. A failure has written nothing. -/
def loadBy (format : Toml.Format) (t : FileTree) (home : Place) (root : String)
    (explicit : Option String) (userDirectory : Place) : Except SettingsError Loaded :=
  let (result, writes) := (stepsBy format t home root explicit userDirectory).run []
  result.map (⟨·, writes⟩)

def load (t : FileTree) (home : Place) (root : String) (explicit : Option String)
    (userDirectory : Place) : Except SettingsError Loaded :=
  loadBy Toml.standard t home root explicit userDirectory

end Settings
end PugSize
