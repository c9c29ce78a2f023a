import PugSize.CommandLine.Invocation
import PugSize.Json
import PugSize.LineDiff.Render
import PugSize.Settings
import PugSize.Workspace.Images

/-!
A run of the program: what it prints and which files are there afterwards, given the files before
and the lines that questions are answered with.
-/

namespace PugSize

/-- Which of several files an image path means. -/
structure Question where
  file : String
  candidates : List Place
deriving DecidableEq

namespace Question

def text (q : Question) : String :=
  let choices := q.candidates.mapIdx fun i p => s!"  {i + 1}) {Path.ofPlace p}\n"
  s!"? Several files match {q.file}:\n" ++ String.join choices ++
    "Pick a number (empty to cancel): "

/-- The index that an answer picks from a number of candidates. -/
def pick? (count : Nat) (answer : Text) : Option Nat :=
  (word? (Text.trim answer)).bind fun n => if 1 ≤ n ∧ n ≤ count then some (n - 1) else none

end Question

/-- The answers that are left, and the questions asked so far. -/
structure Interview where
  answers : List Text
  asked : List Question

namespace Interview

/-- Asks a question; without an answer nothing is picked. -/
def ask : Chooser Interview := fun file candidates i =>
  let q : Question := ⟨file, candidates⟩
  let choice := i.answers.head?.bind (Question.pick? candidates.length)
  (choice, ⟨i.answers.drop 1, i.asked ++ [q]⟩)

/-- Asks nothing and picks nothing. -/
def decline : Chooser Interview := fun _ _ i => (none, i)

end Interview

/-- What a run leaves to others: to read the sizes of raster images, to walk the workspace, and to read and
print the files of settings. -/
structure Packages where
  raster? : RasterReader
  walk : Walker
  toml : Toml.Format

/-- The packages that the program runs with. -/
def Packages.standard : Packages := ⟨Raster.size?, FileTree.walked, Toml.standard⟩

/-- Where a run takes place. -/
structure Surroundings where
  tree : FileTree
  /-- The current directory. -/
  home : Place
  /-- The directory for settings of the user. -/
  userDirectory : Place
  answers : List Text

/-- What a run leaves behind. -/
structure Report where
  code : Nat
  output : String
  questions : List Question
  /-- What is printed to the error stream behind the questions. -/
  complaint : String
  writes : FileTree.Writes

namespace Report

/-- Everything that is printed to the error stream. -/
def errors (r : Report) : String := String.join (r.questions.map Question.text) ++ r.complaint

/-- A run that could not begin. -/
def fatal (writes : FileTree.Writes) (message : String) : Report :=
  ⟨1, "", [], s!"Error: {message}\n", writes⟩

end Report

namespace CallEdit

def positionJson (p : Position) : Json :=
  .object [("line", .number p.line), ("character", .number p.character)]

def json (e : CallEdit) : Json :=
  .object
    [("name", .string e.name),
     ("range", .object [("start", positionJson e.start), ("end", positionJson e.stop)]),
     ("newText", .string e.newText)]

end CallEdit

namespace Run

open CommandLine (InsertOptions Invocation Output Ending)

/-- The path of the workspace. -/
def root (s : Surroundings) (o : InsertOptions) : String := o.root.getD (Path.absolute s.home)

/-- The file tree behind the loading of settings. -/
def tree (s : Surroundings) (loaded : Settings.Loaded) : FileTree := s.tree.writeAll loaded.writes

def search (s : Surroundings) (o : InsertOptions) (loaded : Settings.Loaded) : ImageSearch :=
  let settings := loaded.settings
  ImageSearch.inWorkspace (tree s loaded) s.home (root s o) (String.ofList settings.imagesRoot)
    settings.searchesWorkspace (settings.unsupportedExtensions.map String.ofList)

def chooser : Output → Chooser Interview
  | .json => Interview.decline
  | _ => Interview.ask

def request (i : Invocation) (cursor : Position) (settings : Settings) : SizeRequest where
  cursor
  display := i.display
  overwrite := i.options.overwrite.getD settings.overwrites
  extraNames := i.options.mixins.map String.toList

/-- The edit, or why there is none, and the questions that were asked for it. -/
def planBy (packages : Packages) (s : Surroundings) (i : Invocation) (loaded : Settings.Loaded)
    (b : Buffer) (cursor : Position) : Except SizingError CallEdit × List Question :=
  let resolver := (search s i.options loaded).resolverBy packages.raster? packages.walk
    (chooser i.options.output)
  let (result, interview) :=
    (Insert.plan b (request i cursor loaded.settings) loaded.settings.registry resolver).run
      ⟨s.answers, []⟩
  (result, interview.asked)

/-- A run that ends without an edit. That there was nothing to do is no failure. -/
def refuse (output : Output) (writes : FileTree.Writes) (questions : List Question)
    (e : SizingError) : Report :=
  if e.isBenign then
    if output = .json then ⟨0, "", questions, e.message ++ "\n", writes⟩
    else ⟨0, e.message ++ "\n", questions, "", writes⟩
  else ⟨1, "", questions, s!"error: {e.message}\n", writes⟩

/-- The file at a path with new text. -/
def store (t : FileTree) (home : Place) (path : String) (new : Text) : FileTree.Writes :=
  match t.locate home path with
  | .ok place => [(place, (String.ofList new).toUTF8)]
  | .error _ => []

/-- What becomes of an edit. -/
def carryOut (s : Surroundings) (o : InsertOptions) (loaded : Settings.Loaded) (b : Buffer)
    (questions : List Question) (edit : CallEdit) : Report :=
  if o.output = .json then
    ⟨0, String.ofList (edit.json.pretty 0) ++ "\n", questions, "", loaded.writes⟩
  else
    match Insert.apply b edit with
    | .error e => { Report.fatal loaded.writes e.message with questions }
    | .ok after =>
      let shown := LineDiff.render false b.text after.text ++ "\n"
      let stored :=
        if o.output = .preview then [] else store (tree s loaded) s.home o.file after.text
      ⟨0, shown, questions, "", loaded.writes ++ stored⟩

/-- Inserts sizes as an invocation says. -/
def insertBy (packages : Packages) (s : Surroundings) (i : Invocation) : Report :=
  let o := i.options
  match Settings.loadBy packages.toml s.tree s.home (root s o) o.config s.userDirectory with
  | .error e => Report.fatal [] e.message
  | .ok loaded =>
    match (tree s loaded).readText s.home o.file with
    | .error cause => Report.fatal loaded.writes s!"Failed to read '{o.file}': {cause.message}"
    | .ok content =>
      match o.cursor with
      | .error message => Report.fatal loaded.writes message
      | .ok cursor =>
        let b := Buffer.ofText content.toList
        match planBy packages s i loaded b cursor with
        | (.error e, questions) => refuse o.output loaded.writes questions e
        | (.ok edit, questions) => carryOut s o loaded b questions edit

def insert (s : Surroundings) (i : Invocation) : Report := insertBy Packages.standard s i

def helpText : String :=
  "Inserts image width/height into the Pug mixin call at a cursor position\n\n" ++
  "Usage: mixsize [OPTIONS] <full|half> --line <LINE> <FILE>\n\n" ++
  "Commands:\n" ++
  "  full  Insert the image's intrinsic size\n" ++
  "  half  Insert half the image's intrinsic size (for 2x assets)\n\n" ++
  "Options:\n" ++
  "  -l, --line <LINE>      Cursor line (1-based)\n" ++
  "  -c, --column <COLUMN>  Cursor column (1-based, in characters) [default: 1]\n" ++
  "      --dry-run          Show the change without writing the file\n" ++
  "      --json             Print the edit as JSON instead of applying it; never prompts\n" ++
  "      --overwrite        Replace width/height values that are already present\n" ++
  "      --no-overwrite     Keep width/height values that are already present\n" ++
  "      --root <DIR>       Workspace root (defaults to the current directory)\n" ++
  "      --config <FILE>    Configuration file to use\n" ++
  "      --mixin <NAME>     Extra mixin name to recognize (repeatable)\n" ++
  "  -v, --verbose          Log debug output to stderr\n" ++
  "  -h, --help             Print help\n" ++
  "  -V, --version          Print version\n"

def versionText : String := "mixsize 0.1.0\n"

/-- A run with the words of a command line. -/
def ofCommandLine (s : Surroundings) (words : List String) : Report :=
  match CommandLine.read words with
  | .ok i => insert s i
  | .error .help => ⟨0, helpText, [], "", []⟩
  | .error .version => ⟨0, versionText, [], "", []⟩
  | .error (.misuse cause) => ⟨2, "", [], s!"error: {cause.message}\n", []⟩

end Run
end PugSize
