import PugSize.Text.Basic

/-!
What the characters of a script fragment belong to: code at a bracket depth, the inside of a
literal, or a comment. Every character gets one class, whatever the text is.
-/

namespace PugSize

/-- The class of a character. An opening bracket has the depth outside, a closing one the depth
inside, and a quote the depth at which its literal stands. -/
inductive CharClass
  | code (depth : Nat)
  | literal
  | comment
deriving DecidableEq, Repr

namespace CharClass

/-- What a character stands in, before it is read. -/
inductive Place
  | code
  | quoted (quote : Char)
  | escaped (quote : Char)
  | lineComment
  | blockOpening
  | blockComment
  | blockClosing
deriving DecidableEq

def isQuote (c : Char) : Bool := c == '"' || c == '\'' || c == '\x60'

def isOpening (c : Char) : Bool := c == '(' || c == '[' || c == '{'

def isClosing (c : Char) : Bool := c == ')' || c == ']' || c == '}'

/-- The classes of a text that begins in the given place and depth. -/
def ofTextFrom (place : Place) (depth : Nat) : Text → List CharClass
  | [] => []
  | c :: cs =>
    match place with
    | .quoted quote =>
      if c = '\\' then literal :: ofTextFrom (.escaped quote) depth cs
      else if c = quote then code depth :: ofTextFrom .code depth cs
      else literal :: ofTextFrom (.quoted quote) depth cs
    | .escaped quote => literal :: ofTextFrom (.quoted quote) depth cs
    | .lineComment =>
      if c = '\n' then code depth :: ofTextFrom .code depth cs
      else comment :: ofTextFrom .lineComment depth cs
    | .blockOpening => comment :: ofTextFrom .blockComment depth cs
    | .blockComment =>
      if c = '*' ∧ cs.head? = some '/' then comment :: ofTextFrom .blockClosing depth cs
      else comment :: ofTextFrom .blockComment depth cs
    | .blockClosing => comment :: ofTextFrom .code depth cs
    | .code =>
      if isQuote c then code depth :: ofTextFrom (.quoted c) depth cs
      else if c = '/' ∧ cs.head? = some '/' then comment :: ofTextFrom .lineComment depth cs
      else if c = '/' ∧ cs.head? = some '*' then comment :: ofTextFrom .blockOpening depth cs
      else if isOpening c then code depth :: ofTextFrom .code (depth + 1) cs
      else if isClosing c then code depth :: ofTextFrom .code (depth - 1) cs
      else code depth :: ofTextFrom .code depth cs

def ofText (t : Text) : List CharClass := ofTextFrom .code 0 t

def isCode : CharClass → Bool
  | .code _ => true
  | _ => false

/-- The classes of the bytes of a text: each byte has the class of its character. -/
def ofBytes (t : Text) : List CharClass :=
  (List.zipWith (fun (c : Char) k => List.replicate c.utf8Size k) t (ofText t)).flatten

theorem length_ofTextFrom (t : Text) (place : Place) (depth : Nat) :
    (ofTextFrom place depth t).length = t.length := by
  induction t generalizing place depth with
  | nil => rfl
  | cons c cs ih =>
    cases place <;> simp only [ofTextFrom] <;> (repeat' split) <;> simp [ih]

theorem length_ofText (t : Text) : (ofText t).length = t.length := length_ofTextFrom t _ _

end CharClass
end PugSize
