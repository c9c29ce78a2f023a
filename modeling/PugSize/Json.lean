import PugSize.Text.Basic

/-!
JSON as it is printed: objects with an entry on each line, indented by two spaces, and strings in
which only quotation marks, backslashes and control characters are escaped.
-/

namespace PugSize

inductive Json
  | number (n : Nat)
  | string (t : Text)
  | object (entries : List (String × Json))

namespace Json

def hexDigit (n : Nat) : Char := Nat.digitChar (n % 16)

def escapeChar (c : Char) : Text :=
  match c with
  | '"' => ['\\', '"']
  | '\\' => ['\\', '\\']
  | '\x08' => ['\\', 'b']
  | '\x0c' => ['\\', 'f']
  | '\n' => ['\\', 'n']
  | '\r' => ['\\', 'r']
  | '\t' => ['\\', 't']
  | _ =>
    if c.toNat < 32 then ['\\', 'u', '0', '0', hexDigit (c.toNat / 16), hexDigit c.toNat]
    else [c]

def quote (t : Text) : Text := '"' :: t.flatMap escapeChar ++ ['"']

mutual

/-- A value whose lines are indented by the given number of spaces. -/
def pretty (indent : Nat) : Json → Text
  | .number n => (toString n).toList
  | .string t => quote t
  | .object [] => ['{', '}']
  | .object entries =>
    let lines := prettyEntries (indent + 2) entries
    '{' :: '\n' :: List.intercalate [',', '\n'] lines ++
      '\n' :: List.replicate indent ' ' ++ ['}']

def prettyEntries (indent : Nat) : List (String × Json) → List Text
  | [] => []
  | (key, value) :: rest =>
    (List.replicate indent ' ' ++ quote key.toList ++ ": ".toList ++ value.pretty indent) ::
      prettyEntries indent rest

end

end Json
end PugSize
