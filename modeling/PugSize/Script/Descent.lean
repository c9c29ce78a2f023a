import PugSize.Script.Expr

/-!
The descent over the tokens of a call, step by step. It moves a position over the tokens, refuses what it
cannot read, and records the spans of what it read within the text between the parentheses. That it might
never end, or might do what it must not, is part of what a step gives. The steps call one another as deep as
they like: a call ends if it ends with its calls up to some depth.
-/

namespace PugSize.Script

/-- Whether a token ends an expression before it. -/
def TokenKind.delimits (kind : TokenKind) : Bool := kind == .comma || kind.closes?.isSome

/-- What a step must not do: ask where the last token ended before there was one, take the prefix of the
call off a smaller offset, or record a span that ends before it starts. -/
inductive Fault
  | noToken
  | beforeBase (offset : Nat)
  | reversed (start stop : Nat)
deriving DecidableEq

/-- A step over tokens from a position. It may never end, do what it must not, refuse, or give something
and the next position. -/
abbrev Descent := StateT Nat (OptionT (ExceptT Fault Option))

namespace Descent

variable {α : Type}

/-- A step that never ends. -/
def never : Descent α := fun _ => (none : Option _)

open Classical in
/-- What the steps of a sequence give at a position, once one of them ends there. -/
noncomputable def limit (x : Nat → Descent α) : Descent α := fun p =>
  if h : ∃ n, x n p ≠ never p then x h.choose p else never p

end Descent

/-- What a round of a loop gives: what the loop gathered, or what it goes on with. -/
inductive Round (σ : Type)
  | ended (s : σ)
  | again (s : σ)

/-- The steps that call one another, with what they are called with, by what they give. -/
inductive Call : Type → Type
  /-- Steps over an expression, up to a delimiter outside the brackets that are open. -/
  | skip (stack : List Bracket) : Call Unit
  /-- An expression of which only the span is known. -/
  | skippedFrom (start : Nat) : Call Expr
  | expr : Call Expr
  /-- The literal that a token begins. -/
  | literal? (first : Token) : Call (Option Expr)
  | array : Call Expr
  | arrayLoop (elements : List Expr) : Call (List Expr)
  /-- An element with its comma, or the comma of a hole. -/
  | arrayRound (elements : List Expr) : Call (Round (List Expr))
  | element : Call Expr
  | object : Call Expr
  | objectLoop (props : List (Property Expr)) : Call (List (Property Expr))
  | objectRound (props : List (Property Expr)) : Call (Round (List (Property Expr)))
  | property : Call (Property Expr)
  /-- The key of a property, computed or not. -/
  | propertyKey (first : Token) : Call Unit
  /-- What follows a key: a value, nothing where a name stands for itself, or a form such as a method, which
  is stepped over. -/
  | propertyValue (first : Token) : Call Expr
  | callRound (args : List Expr) : Call (Round (List Expr))
  | callLoop (args : List Expr) : Call (List Expr)

/-- The tokens of a call, and the width of what stands before its arguments. -/
structure CallTokens where
  tokens : List Token
  base : Nat

namespace CallTokens

variable (c : CallTokens)

def peek? : Descent (Option Token) := do return c.tokens[← get]?

def bump : Descent Token := do
  match ← c.peek? with
  | none => failure
  | some t =>
    set ((← get) + 1)
    return t

def expect (kind : TokenKind) : Descent Token := do
  match ← c.peek? with
  | none => failure
  | some t => if t.kind = kind then c.bump else failure

/-- A step over a token of the kind, if one is there. -/
def accept (kind : TokenKind) : Descent Bool := do
  match ← c.peek? with
  | none => return false
  | some t =>
    if t.kind = kind then
      let _ ← c.bump
      return true
    else return false

def span (start stop : Nat) : Descent Span :=
  if start < c.base then throwThe Fault (.beforeBase start)
  else if stop < c.base then throwThe Fault (.beforeBase stop)
  else if stop < start then throwThe Fault (.reversed start stop)
  else return ⟨start - c.base, stop - c.base⟩

/-- The end of the last token that was stepped over. -/
def lastEnd : Descent Nat := do
  match ← get with
  | 0 => throwThe Fault .noToken
  | last + 1 =>
    match c.tokens[last]? with
    | none => throwThe Fault .noToken
    | some t => return t.stop

def spanFrom (start : Nat) : Descent Span := do c.span start (← c.lastEnd)

def atDelimiter : Descent Bool := do return (← c.peek?).all fun t => t.kind.delimits

/-- A token within the brackets that are open, the innermost first. -/
def skipRound (stack : List Bracket) : Descent (Round (List Bracket)) := do
  match ← c.peek? with
  | none => if stack = [] then return .ended stack else failure
  | some t =>
    match t.kind.opens?, t.kind.closes?, stack with
    | some shape, _, _ =>
      let _ ← c.bump
      return .again (shape :: stack)
    | none, some _, [] => return .ended []
    | none, some shape, opened :: outer =>
      if opened = shape then
        let _ ← c.bump
        return .again outer
      else failure
    | none, none, _ =>
      if t.kind = .comma ∧ stack = [] then return .ended stack
      else
        let _ ← c.bump
        return .again stack

/-- A step over a comma, unless the list ends. -/
def separator (closing : TokenKind) : Descent Unit := do
  match ← c.peek? with
  | none => failure
  | some t =>
    if t.kind = .comma then
      let _ ← c.bump
    else if t.kind = closing then return ()
    else failure

/-- What the steps that call one another give, by what the steps that they call give. -/
def step (c : CallTokens) (call : {α : Type} → Call α → Descent α) : {α : Type} → Call α → Descent α
  | _, .skip stack => do
    match ← c.skipRound stack with
    | .ended _ => return ()
    | .again stack => call (.skip stack)
  | _, .skippedFrom start => do
    call (.skip [])
    return .other (← c.spanFrom start)
  | _, .expr => do
    let start ← get
    match ← c.peek? with
    | none => failure
    | some first =>
      let literal ← call (.literal? first)
      let ended ← c.atDelimiter
      match literal, ended with
      | some e, true => return e
      | _, _ => if ended ∧ (← get) = start then failure else call (.skippedFrom first.start)
  | _, .literal? first => do
    match first.kind with
    | .str =>
      let t ← c.bump
      return some (.str (Quoted.value t.text) (← c.span t.start t.stop))
    | .number =>
      let t ← c.bump
      return some (.number (← c.span t.start t.stop))
    | .ident =>
      let t ← c.bump
      -- A name is stepped over without being a literal.
      if Expr.keywords.contains t.text then return some (.keyword t.text (← c.span t.start t.stop))
      else return none
    | .lbracket => return some (← call .array)
    | .lbrace => return some (← call .object)
    | _ => return none
  | _, .array => do
    let opening ← c.expect .lbracket
    let elements ← call (.arrayLoop [])
    let closing ← c.bump
    return .array elements (← c.span opening.start closing.stop)
  | _, .arrayLoop elements => do
    match ← call (.arrayRound elements) with
    | .ended elements => return elements
    | .again elements => call (.arrayLoop elements)
  | _, .arrayRound elements => do
    match ← c.peek? with
    | none => failure
    | some t =>
      if t.kind = .rbracket then return .ended elements
      else if t.kind = .comma then
        -- A hole.
        let _ ← c.bump
        return .again elements
      else
        let e ← call .element
        c.separator .rbracket
        return .again (elements ++ [e])
  | _, .element => do
    match ← c.peek? with
    | none => failure
    | some t =>
      if t.kind = .spread then
        let spread ← c.bump
        let _ ← call .expr
        return .other (← c.spanFrom spread.start)
      else call .expr
  | _, .object => do
    let opening ← c.expect .lbrace
    let props ← call (.objectLoop [])
    let closing ← c.bump
    return .object props (← c.span opening.start closing.stop)
  | _, .objectLoop props => do
    match ← call (.objectRound props) with
    | .ended props => return props
    | .again props => call (.objectLoop props)
  | _, .objectRound props => do
    match ← c.peek? with
    | none => failure
    | some t =>
      if t.kind = .rbrace then return .ended props
      else
        let p ← call .property
        c.separator .rbrace
        return .again (props ++ [p])
  | _, .property => do
    match ← c.peek? with
    | none => failure
    | some first =>
      if first.kind = .spread then
        let value ← call .element
        return ⟨none, value.span, value⟩
      else
        call (.propertyKey first)
        let value ← call (.propertyValue first)
        return ⟨first.key?, ← c.spanFrom first.start, value⟩
  | _, .propertyKey first => do
    if first.key?.isSome then
      let _ ← c.bump
    else if first.kind = .lbracket then
      let _ ← c.bump
      call (.skip [])
      let _ ← c.expect .rbracket
    else failure
  | _, .propertyValue first => do
    if ← c.accept .colon then call .expr
    else if ← c.atDelimiter then
      -- A name stands for itself.
      if first.kind = .ident then return .other (← c.span first.start first.stop) else failure
    else
      match ← c.peek? with
      | none => failure
      | some t => call (.skippedFrom t.start)
  | _, .callRound args => do
    if ← c.accept .rparen then return .ended args
    else
      let e ← call .expr
      c.separator .rparen
      return .again (args ++ [e])
  | _, .callLoop args => do
    match ← call (.callRound args) with
    | .ended args => return args
    | .again args => call (.callLoop args)

/-- The steps with calls up to a depth. A deeper call never ends. -/
def upTo (c : CallTokens) : Nat → {α : Type} → Call α → Descent α
  | 0, _, _ => Descent.never
  | depth + 1, _, k => c.step (c.upTo depth) k

/-- The steps with calls of any depth. They end where those with calls up to some depth do. -/
noncomputable def run (c : CallTokens) {α : Type} (k : Call α) : Descent α :=
  Descent.limit fun depth => c.upTo depth k

noncomputable section

abbrev skip (stack : List Bracket) : Descent Unit := c.run (.skip stack)
abbrev skippedFrom (start : Nat) : Descent Expr := c.run (.skippedFrom start)
abbrev expr : Descent Expr := c.run .expr
abbrev literal? (first : Token) : Descent (Option Expr) := c.run (.literal? first)
abbrev array : Descent Expr := c.run .array
abbrev arrayLoop (elements : List Expr) : Descent (List Expr) := c.run (.arrayLoop elements)
abbrev arrayRound (elements : List Expr) : Descent (Round (List Expr)) := c.run (.arrayRound elements)
abbrev element : Descent Expr := c.run .element
abbrev object : Descent Expr := c.run .object
abbrev objectLoop (props : List (Property Expr)) : Descent (List (Property Expr)) := c.run (.objectLoop props)
abbrev objectRound (props : List (Property Expr)) : Descent (Round (List (Property Expr))) :=
  c.run (.objectRound props)
abbrev property : Descent (Property Expr) := c.run .property
abbrev propertyKey (first : Token) : Descent Unit := c.run (.propertyKey first)
abbrev propertyValue (first : Token) : Descent Expr := c.run (.propertyValue first)
abbrev callRound (args : List Expr) : Descent (Round (List Expr)) := c.run (.callRound args)
abbrev callLoop (args : List Expr) : Descent (List Expr) := c.run (.callLoop args)

/-- The arguments of a call, the closing parenthesis of which must be the last token. -/
def call : Descent (List Expr) := do
  let _ ← c.expect .ident
  let _ ← c.expect .lparen
  let args ← c.callLoop []
  if (← get) = c.tokens.length then return args else failure

end

end CallTokens

/-- The tokens of a call with the text between its parentheses, or the offset at which no token begins. -/
def callTokens (t : Text) : Except Nat CallTokens :=
  (tokenize (['f', '('] ++ t ++ [')'])).map fun ts => ⟨ts, Text.width ['f', '(']⟩

end PugSize.Script
