import PugSize.Script.Tree
import PugSize.Script.Quoted

/-!
The expressions of an argument list. Literals, arrays and objects are read; of any other
expression only its span is known. An expression is a segment between commas, and it is
refused if it begins with an array or an object that cannot be read.
-/

namespace PugSize.Script

/-- A property of an object. Computed keys and spreads have no key. -/
structure Property (α : Type) where
  key : Option Text
  span : Span
  value : α

inductive Expr
  | str (value : Text) (span : Span)
  | number (span : Span)
  | keyword (word : Text) (span : Span)
  | array (elements : List Expr) (span : Span)
  | object (props : List (Property Expr)) (span : Span)
  | other (span : Span)

namespace Expr

def span : Expr → Span
  | .str _ s | .number s | .keyword _ s | .array _ s | .object _ s | .other s => s

def str? : Expr → Option Text
  | .str value _ => some value
  | _ => none

def keywords : List Text := ["null", "undefined", "true", "false"].map String.toList

/-- The expression that one token makes. -/
def ofToken (t : Token) : Expr :=
  match t.kind with
  | .str => .str (Quoted.value t.text) t.span
  | .number => .number t.span
  | .ident => if t.text ∈ keywords then .keyword t.text t.span else .other t.span
  | _ => .other t.span

/-- The expression of a segment that begins with the given token. -/
def ofLeaf (t : Token) (rest : List Tree) : Expr :=
  if rest.isEmpty then ofToken t else .other ⟨t.start, (Tree.leaf t).lastStop rest⟩

end Expr

/-- The last of several properties with a key. -/
def Property.find? {α : Type} (props : List (Property α)) (key : Text) : Option (Property α) :=
  props.reverse.find? fun p => p.key == some key

/-- The key that a token gives. -/
def Token.key? (t : Token) : Option Text :=
  match t.kind with
  | .ident | .number => some t.text
  | .str => some (Quoted.value t.text)
  | _ => none

mutual

/-- The expression of a bracket group that stands alone. -/
def Tree.expr? : Tree → Option Expr
  | .leaf t => some (Expr.ofToken t)
  | .group .round span _ => some (.other span)
  | .group .square span segs => (elements? segs).map fun es => .array es span
  | .group .curly span segs => (properties? segs).map fun ps => .object ps span

/-- The expression of a segment. With `spreads`, a leading `...` must be followed by an
expression. -/
def segmentExpr? (spreads : Bool) : List Tree → Option Expr
  | [] => none
  | .leaf t :: rest =>
    if spreads ∧ t.kind = .spread then
      (segmentExpr? false rest).map fun _ => .other ⟨t.start, (Tree.leaf t).lastStop rest⟩
    else some (Expr.ofLeaf t rest)
  | .group shape span segs :: rest =>
    (Tree.expr? (.group shape span segs)).map fun e =>
      if rest.isEmpty then e
      else .other ⟨span.start, (Tree.group shape span segs).lastStop rest⟩

/-- The elements of an array; an empty segment is a hole. -/
def elements? : List (List Tree) → Option (List Expr)
  | [] => some []
  | [] :: later => elements? later
  | (t :: rest) :: later =>
    (segmentExpr? true (t :: rest)).bind fun e => (elements? later).map (e :: ·)

/-- The value of a property, given what follows its key. -/
def propertyValue? : List Tree → Option Expr
  | [] => none
  | .leaf t :: rest =>
    if t.kind = .colon then segmentExpr? false rest
    else some (.other ⟨t.start, (Tree.leaf t).lastStop rest⟩)
  | .group shape span segs :: rest =>
    some (.other ⟨span.start, (Tree.group shape span segs).lastStop rest⟩)

/-- The property of a segment: a spread, a key with a value, a computed key with a value, a
shorthand name, or a form such as a method, which is stepped over. -/
def property? : List Tree → Option (Property Expr)
  | [] => none
  | .leaf t :: rest =>
    let span : Span := ⟨t.start, (Tree.leaf t).lastStop rest⟩
    if t.kind = .spread then
      (segmentExpr? false rest).map fun _ => ⟨none, span, .other span⟩
    else
      t.key?.bind fun key =>
        if rest.isEmpty then
          if t.kind = .ident then some ⟨some key, span, .other t.span⟩ else none
        else (propertyValue? rest).map fun value => ⟨some key, span, value⟩
  | .group shape keySpan segs :: rest =>
    if shape = .square ∧ segs.length ≤ 1 then
      (propertyValue? rest).map fun value =>
        ⟨none, ⟨keySpan.start, (Tree.group shape keySpan segs).lastStop rest⟩, value⟩
    else none

/-- The properties of an object; only the last segment may be empty. -/
def properties? : List (List Tree) → Option (List (Property Expr))
  | [] => some []
  | [] :: later => if later.isEmpty then some [] else none
  | (t :: rest) :: later =>
    (property? (t :: rest)).bind fun p => (properties? later).map (p :: ·)

end

/-- The arguments of a call; only the last segment may be empty. -/
def argumentsOf? : List (List Tree) → Option (List Expr)
  | [] => some []
  | [] :: later => if later.isEmpty then some [] else none
  | (t :: rest) :: later =>
    (segmentExpr? false (t :: rest)).bind fun e => (argumentsOf? later).map (e :: ·)

/-- The tokens of a text that is followed by a closing parenthesis, if that parenthesis is
the last of them and not part of a comment or a literal. -/
def argumentTokens? (t : Text) : Option (List Token) :=
  match tokenize (t ++ [')']) with
  | .error _ => none
  | .ok ts => if ts.getLast?.map Token.kind = some .rparen then some ts.dropLast else none

/-- The arguments that a text makes between the parentheses of a call. -/
def arguments? (t : Text) : Option (List Expr) :=
  (argumentTokens? t).bind fun ts => (segments? ts).bind argumentsOf?

end PugSize.Script
