import PugSize.Script.Token

/-!
Tokens arranged by their brackets. A bracket group holds the segments that its commas
separate, so a group without commas has one segment, which may be empty.
-/

namespace PugSize.Script

inductive Bracket
  | round | square | curly
deriving DecidableEq, Repr

namespace TokenKind

def opens? : TokenKind → Option Bracket
  | .lparen => some .round
  | .lbracket => some .square
  | .lbrace => some .curly
  | _ => none

def closes? : TokenKind → Option Bracket
  | .rparen => some .round
  | .rbracket => some .square
  | .rbrace => some .curly
  | _ => none

end TokenKind

inductive Tree
  | leaf (token : Token)
  | group (shape : Bracket) (span : Span) (segments : List (List Tree))

def Tree.span : Tree → Span
  | .leaf t => t.span
  | .group _ span _ => span

/-- Where the last of a tree and its followers ends. -/
def Tree.lastStop (t : Tree) (rest : List Tree) : Nat := (rest.getLast?.getD t).span.stop

/-- The segments read so far at one bracket depth, each list with its last member first. -/
structure Level where
  segments : List (List Tree)
  current : List Tree

namespace Level

def start : Level := ⟨[], []⟩

def push (l : Level) (t : Tree) : Level := ⟨l.segments, t :: l.current⟩

def comma (l : Level) : Level := ⟨l.current.reverse :: l.segments, []⟩

/-- All segments in the order of the text. -/
def toSegments (l : Level) : List (List Tree) := (l.current.reverse :: l.segments).reverse

end Level

/-- A bracket that is still open, with what stood before it. -/
structure OpenBracket where
  shape : Bracket
  start : Nat
  before : Level

/-- The segments of tokens that follow the given open brackets, or `none` if a closing bracket
does not match or a bracket stays open. -/
def segmentsFrom? (open_ : List OpenBracket) (level : Level) : List Token → Option (List (List Tree))
  | [] => if open_.isEmpty then some level.toSegments else none
  | t :: ts =>
    match t.kind.opens?, t.kind.closes? with
    | some shape, _ => segmentsFrom? (⟨shape, t.start, level⟩ :: open_) Level.start ts
    | none, some shape =>
      match open_ with
      | [] => none
      | o :: outer =>
        if o.shape = shape then
          segmentsFrom? outer
            (o.before.push (.group shape ⟨o.start, t.stop⟩ level.toSegments)) ts
        else none
    | none, none =>
      if t.kind = .comma then segmentsFrom? open_ level.comma ts
      else segmentsFrom? open_ (level.push (.leaf t)) ts

/-- The segments of tokens whose brackets are well nested. -/
def segments? (ts : List Token) : Option (List (List Tree)) :=
  segmentsFrom? [] Level.start ts

end PugSize.Script
