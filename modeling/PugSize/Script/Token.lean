import PugSize.Script.Lexeme

/-!
The tokens of a script fragment: its lexemes without white space and comments, each with the
offset at which it stands.
-/

namespace PugSize.Script

structure Token where
  kind : TokenKind
  text : Text
  start : Nat
deriving DecidableEq

namespace Token

def stop (t : Token) : Nat := t.start + t.text.width

def span (t : Token) : Span := ⟨t.start, t.stop⟩

/-- The tokens among lexemes that begin at the given offset. -/
def ofLexemes (offset : Nat) : List Lexeme → List Token
  | [] => []
  | l :: ls =>
    let later := ofLexemes (offset + l.text.width) ls
    match l.kind with
    | .token kind => ⟨kind, l.text, offset⟩ :: later
    | .trivia _ => later

end Token

/-- The tokens of a text, or the offset at which no lexeme begins. -/
def tokenize (t : Text) : Except Nat (List Token) :=
  match scan t with
  | (ls, []) => .ok (Token.ofLexemes 0 ls)
  | (ls, _ :: _) => .error (Text.width (ls.map Lexeme.text).flatten)

end PugSize.Script
