import PugSize.Text.Lines
import PugSize.Text.Blank
import PugSize.Workspace.Glob
import PugSize.Workspace.Search

/-!
The walk that the program runs with, as far as the files of a tree decide it. Hidden files and
directories are passed over unless a rule keeps them; rules stand in ignore files and hold for the
directory of the file and below. The ignore file that git reads for all trees of a user is left out.
What is proved of a search holds for every walk.
-/

namespace PugSize

/-- What rules say of a path. -/
inductive Verdict
  | ignored | kept | unsaid
deriving DecidableEq

/-- The first verdict, if it says anything, else the second. -/
def Verdict.or : Verdict → Verdict → Verdict
  | .unsaid, v => v
  | v, _ => v

structure IgnoreRule where
  pattern : List Glob.Part
  keeps : Bool
  onlyDirectories : Bool

namespace IgnoreRule

/-- A line without the white space at its end, unless a backslash protects a space there. -/
def trimLine (line : Text) : Text :=
  match line.reverse with
  | ' ' :: '\\' :: _ => line
  | _ => Text.trimEnd line

/-- A pattern that stands anywhere below the directory of its file. -/
def anywhere (pattern : Text) : Text :=
  if "**/".toList.isPrefixOf pattern || pattern == "**".toList then pattern
  else "**/".toList ++ pattern

/-- The rule of a line. Empty lines, comments and patterns that cannot be read give none. -/
def ofLine? (line : Text) : Option IgnoreRule :=
  let line := trimLine line
  match line with
  | [] => none
  | '#' :: _ => none
  | _ =>
    let escaped := "\\!".toList.isPrefixOf line || "\\#".toList.isPrefixOf line
    let keeps := !escaped && line.head? == some '!'
    let body := if escaped || keeps then line.drop 1 else line
    let anchored := body.head? == some '/'
    let body := if anchored && !escaped then body.drop 1 else body
    let onlyDirectories := body.getLast? == some '/'
    let body := if onlyDirectories then body.dropLast else body
    let body := if onlyDirectories && body.getLast? == some '\\' then body.dropLast else body
    let body := if anchored || body.contains '/' then body else anywhere body
    let body := if "/**".toList.isSuffixOf body then body ++ "/*".toList else body
    (Glob.read? body).map fun pattern => { pattern, keeps, onlyDirectories }

/-- The lines of a file in bytes, without their line feeds. -/
def byteLines (bytes : List UInt8) : List (List UInt8) :=
  (bytes.splitBy fun b _ => b != 10).map fun line => line.filter (· != 10)

/-- The lines of an ignore file up to the first one that is not text. -/
def fileLines (content : ByteArray) : List Text :=
  let lines := (byteLines content.toList).map fun l => String.fromUTF8? ⟨l.toArray⟩
  (lines.takeWhile Option.isSome).map fun s => Text.stripReturn (s.getD "").toList

/-- A text without the mark that may stand at the beginning of a file. -/
def withoutMark (line : Text) : Text := if line.head? == some '\ufeff' then line.drop 1 else line

def ofFile (content : ByteArray) : List IgnoreRule :=
  match fileLines content with
  | [] => []
  | first :: rest => (withoutMark first :: rest).filterMap ofLine?

def applies (path : List UInt8) (isDirectory : Bool) (r : IgnoreRule) : Bool :=
  (isDirectory || !r.onlyDirectories) && Glob.accepts r.pattern path

/-- What rules say of a path below their directory; the last rule that applies counts. -/
def verdict (rules : List IgnoreRule) (path : List UInt8) (isDirectory : Bool) : Verdict :=
  match rules.reverse.find? (applies path isDirectory) with
  | some r => if r.keeps then .kept else .ignored
  | none => .unsaid

end IgnoreRule

namespace FileTree

/-- The files with rules, by the names that lead to them from a directory. Rules in an earlier kind
of file, in any directory, go before those in a later one. -/
def ignoreFiles : List Place := [[".ignore"], [".gitignore"], [".git", "info", "exclude"]]

def rulesAt (t : FileTree) (p : Place) : List IgnoreRule :=
  match t.files.lookup p with
  | some content => IgnoreRule.ofFile content
  | none => []

/-- The bytes of a place as a path. -/
def pathBytes (p : Place) : List UInt8 := (Path.ofPlace p).toUTF8.toList

/-- What the files of one kind say of an entry. The nearest directory counts first; `above` leads
to the directory of the entry and is cut from its end, `below` leads on to the entry. -/
def verdictOfKind (t : FileTree) (kind : Place) (isDirectory : Bool) :
    (aboveReversed below : List String) → Verdict
  | [], below =>
    IgnoreRule.verdict (t.rulesAt kind) (pathBytes below) isDirectory
  | name :: outer, below =>
    let here := (name :: outer).reverse
    (IgnoreRule.verdict (t.rulesAt (here ++ kind)) (pathBytes below) isDirectory).or
      (verdictOfKind t kind isDirectory outer (name :: below))

/-- What all ignore files say of an entry of a directory. -/
def verdict (t : FileTree) (directory : Place) (name : String) (isDirectory : Bool) : Verdict :=
  ignoreFiles.foldl
    (fun v kind => v.or (t.verdictOfKind kind isDirectory directory.reverse [name])) .unsaid

/-- Whether an entry of a directory is searched. -/
def isSearched (t : FileTree) (directory : Place) (name : String) (isDirectory : Bool) : Bool :=
  match t.verdict directory name isDirectory with
  | .ignored => false
  | .kept => true
  | .unsaid => name.toList.head? != some '.'

/-- Whether a search of a directory comes to the file that the names lead to. -/
def isReached (t : FileTree) (directory : Place) : List String → Bool
  | [] => false
  | [name] => t.isSearched directory name false
  | name :: rest => t.isSearched directory name true && t.isReached (directory ++ [name]) rest

/-- The files below a directory, by the names that lead to them. -/
def filesBelow (t : FileTree) (directory : Place) : List Place :=
  ((t.files.map Prod.fst).filter directory.isPrefixOf).map fun p => p.drop directory.length

/-- The files below a directory that are passed over neither themselves nor on the way. -/
def walked : Walker := fun t directory => (t.filesBelow directory).filter (t.isReached directory)

def filesEndingIn (t : FileTree) (directory : Place) (path : String) : List Place :=
  t.filesEndingInBy walked directory path

end FileTree
end PugSize
