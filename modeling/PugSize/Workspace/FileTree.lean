import PugSize.Workspace.Path
import PugSize.Image.ImageError

/-!
A file system as far as it is looked at: files with their contents, and directories without files.
The directories on the way to a file are there with it.
-/

namespace PugSize

structure FileTree where
  files : List (Place × ByteArray)
  directories : List Place

namespace FileTree

inductive Entry
  | file (content : ByteArray)
  | directory
  | absent

/-- Whether a place is a directory. -/
def isDirectory (t : FileTree) (p : Place) : Bool :=
  p.isEmpty || t.directories.any p.isPrefixOf ||
    t.files.any fun (q, _) => p.isPrefixOf q && p.length < q.length

def entry (t : FileTree) (p : Place) : Entry :=
  match t.files.lookup p with
  | some content => .file content
  | none => if t.isDirectory p then .directory else .absent

/-- The place that the parts of a path lead to from another place. Each part leads on from a
directory. -/
def follow (t : FileTree) (p : Place) : List String → Except ReadFailure Place
  | [] => .ok p
  | part :: rest =>
    match t.entry p with
    | .absent => .error .notFound
    | .file _ => .error .notADirectory
    | .directory =>
      if part = "" ∨ part = "." then follow t p rest
      else if part = ".." then follow t p.dropLast rest
      else follow t (p ++ [part]) rest

/-- The place of a written path, if something is there. A relative path leads on from `home`. -/
def locate (t : FileTree) (home : Place) (path : String) : Except ReadFailure Place := do
  if path = "" then throw .notFound
  let p ← t.follow (if Path.isAbsolute path then [] else home) (Path.parts path)
  match t.entry p with
  | .absent => throw .notFound
  | _ => return p

def read (t : FileTree) (home : Place) (path : String) : Except ReadFailure ByteArray := do
  match t.entry (← t.locate home path) with
  | .file content => return content
  | .directory => throw .isADirectory
  | .absent => throw .notFound

def readText (t : FileTree) (home : Place) (path : String) : Except ReadFailure String := do
  match String.fromUTF8? (← t.read home path) with
  | some s => return s
  | none => throw .notText

def isFile (t : FileTree) (home : Place) (path : String) : Bool :=
  match t.read home path with
  | .ok _ => true
  | .error _ => false

/-- A file tree with new content at a place. -/
def write (t : FileTree) (p : Place) (content : ByteArray) : FileTree :=
  { t with files := (p, content) :: t.files.filter fun (q, _) => q != p }

/-- Files to write, one after the other. -/
abbrev Writes := List (Place × ByteArray)

def writeAll (t : FileTree) (ws : Writes) : FileTree :=
  ws.foldl (fun t (p, content) => t.write p content) t

/-- The files that writing makes or changes. -/
def changes (t : FileTree) (ws : Writes) : Writes :=
  ws.filter fun (p, content) => t.files.lookup p != some content

end FileTree
end PugSize
