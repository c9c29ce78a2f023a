import PugSize.Run

/-!
The program. A run sees the files that were there when it began; what it prints goes to the
terminal, its questions are put there one by one, and what it writes goes to the disk at its end.
-/

namespace PugSize.Program

/-- Adds a directory and everything below it. Links are not followed. -/
partial def addDirectory (t : FileTree) (path : String) : IO FileTree := do
  let place := Path.names path
  let mut t := { t with directories := place :: t.directories }
  for entry in ← (← IO.FS.realPath path).readDir do
    let path := Path.join path entry.fileName
    match (← entry.path.symlinkMetadata).type with
    | .dir => t ← addDirectory t path
    | .file =>
      let content ← IO.FS.readBinFile path
      t := { t with files := (Path.names path, content) :: t.files }
    | _ => pure ()
  return t

/-- Adds a directory if it can be read. -/
def addIfDirectory (t : FileTree) (path : String) : IO FileTree :=
  tryCatch (addDirectory t path) fun _ => pure t

/-- Adds a file if it can be read. -/
def addIfFile (t : FileTree) (path : String) : IO FileTree :=
  tryCatch (do return t.write (Path.names path) (← IO.FS.readBinFile path)) fun _ => pure t

/-- A written path as a path from the top. -/
def fromTop (home : String) (path : String) : String :=
  Path.absolute (Path.target (Path.names home) path)

def userDirectory : IO String := do
  let inHome := Path.join ((← IO.getEnv "HOME").getD "/") ".config"
  return ((← IO.getEnv "XDG_CONFIG_HOME").filter Path.isAbsolute).getD inHome

/-- The files that a run with an invocation can look at. -/
def addPaths (t : FileTree) (home : String) (o : CommandLine.InsertOptions) : IO FileTree := do
  let root := (o.root.map (fromTop home)).getD home
  let t ← addIfDirectory t root
  (fromTop home o.file :: (o.config.map (fromTop home)).toList).foldlM addIfFile t

def surroundings (words : List String) : IO Surroundings := do
  let home := (← IO.currentDir).toString
  let user ← userDirectory
  let t ← addIfFile ⟨[], [Path.names home, Path.names user]⟩ (Path.join user Settings.userFile)
  let t ← match CommandLine.read words with
    | .ok i => addPaths t home i.options
    | .error _ => pure t
  return { tree := t, home := Path.names home, userDirectory := Path.names user, answers := [] }

/-- Runs with the answers given so far, and asks for the next one as long as there is a question
without an answer. -/
partial def interview (s : Surroundings) (words : List String) : IO Report := do
  let r := Run.ofCommandLine s words
  match r.questions[s.answers.length]? with
  | none => return r
  | some q =>
    IO.eprint q.text
    let answer ← (← IO.getStdin).getLine
    interview { s with answers := s.answers ++ [answer.toList] } words

def write (place : Place) (content : ByteArray) : IO Unit := do
  IO.FS.createDirAll (Path.absolute place.dropLast)
  IO.FS.writeBinFile (Path.absolute place) content

end PugSize.Program

def main (words : List String) : IO UInt32 := do
  let r ← PugSize.Program.interview (← PugSize.Program.surroundings words) words
  IO.print r.output
  IO.eprint r.complaint
  for (place, content) in r.writes do
    PugSize.Program.write place content
  return r.code.toUInt32
