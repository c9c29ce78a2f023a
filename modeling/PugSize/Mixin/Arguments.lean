import PugSize.Script.Expr
import PugSize.Mixin.Rule

/-!
Argument texts read by shape: where the images are, and which sizes stand beside them.
-/

namespace PugSize

/-- What an argument list lacks when it has no first argument. -/
inductive FirstArgument
  | file | options | data
deriving DecidableEq

def FirstArgument.name : FirstArgument → String
  | .file => "file"
  | .options => "options"
  | .data => "data"

/-- Why an argument list does not have the shape of a rule. -/
inductive ArgumentError
  | unparsable
  | missing (what : FirstArgument)
  | fileNotLiteral
  | wrongArity (count : Nat)
  | notAnObject
  | noOptionImage (pc sp : Text)
  | notArrayOrObject
  | noUsableItem
  | noImageKey
deriving DecidableEq

def ArgumentError.message : ArgumentError → String
  | .unparsable => "Could not parse the arguments as a JavaScript argument list."
  | .missing what =>
    let name := what.name
    s!"Not enough arguments: the first argument ({name}) is missing."
  | .fileNotLiteral =>
    "The file argument is not a string literal (variables and expressions are not supported)."
  | .wrongArity count => s!"Expected exactly one argument (an options object), found {count}."
  | .notAnObject => "The options argument is not an object literal."
  | .noOptionImage pc sp =>
    s!"The options object has no string literal `{String.ofList pc}` or `{String.ofList sp}`."
  | .notArrayOrObject =>
    "The first argument is not an array or object literal (variable references are not supported)."
  | .noUsableItem => "No array element has an image key with a string literal value."
  | .noImageKey => "The object has no image key with a string literal value."

open Script

/-- The arguments of a text, as long as it is an argument list. -/
def readArguments (t : Text) : Except ArgumentError (List Expr) :=
  match arguments? t with
  | some args => .ok args
  | none => .error .unparsable

/-- Arguments by position, the first of which is the file. -/
structure PositionalArguments where
  file : Text
  spans : List Span
deriving DecidableEq

def PositionalArguments.read (t : Text) : Except ArgumentError PositionalArguments := do
  let args ← readArguments t
  match args with
  | [] => .error (.missing .file)
  | first :: _ =>
    match first.str? with
    | some file => .ok ⟨file, args.map Expr.span⟩
    | none => .error .fileNotLiteral

/-- An options object: its images and the size properties it has already. -/
structure OptionArguments where
  span : Span
  pc : Option Text
  sp : Option Text
  hasPcWidth : Bool
  hasPcHeight : Bool
  hasSpWidth : Bool
  hasSpHeight : Bool
deriving DecidableEq

/-- The text of a property with a string literal as its value. -/
def stringProperty? (props : List (Property Expr)) (key : Text) : Option Text :=
  (Property.find? props key).bind fun p => p.value.str?

def hasProperty (props : List (Property Expr)) (key : Text) : Bool :=
  (Property.find? props key).isSome

/-- An empty path counts as no image. -/
def OptionArguments.ofProperties (keys : OptionKeys) (props : List (Property Expr)) (span : Span) :
    OptionArguments :=
  let image key := (stringProperty? props key).filter fun path => !path.isEmpty
  { span
    pc := image keys.pc
    sp := image keys.sp
    hasPcWidth := hasProperty props keys.pcWidth
    hasPcHeight := hasProperty props keys.pcHeight
    hasSpWidth := hasProperty props keys.spWidth
    hasSpHeight := hasProperty props keys.spHeight }

def OptionArguments.read (t : Text) (keys : OptionKeys) : Except ArgumentError OptionArguments := do
  match ← readArguments t with
  | [] => .error (.missing .options)
  | [.object props span] =>
    let found := ofProperties keys props span
    if found.pc.isNone ∧ found.sp.isNone then .error (.noOptionImage keys.pc keys.sp)
    else .ok found
  | [_] => .error .notAnObject
  | args => .error (.wrongArity args.length)

/-- An image found in an item, with the key that held it. -/
structure ItemImage where
  image : Text
  imageKey : Text
  slot : ImageSlot
  hasWidth : Bool
  hasHeight : Bool
deriving DecidableEq

structure CollectionItem where
  span : Span
  images : List ItemImage
deriving DecidableEq

inductive CollectionForm
  | array | object
deriving DecidableEq

structure CollectionArguments where
  form : CollectionForm
  items : List CollectionItem
deriving DecidableEq

def ItemImage.find? (props : List (Property Expr)) (slot : ImageSlot) : Option ItemImage :=
  slot.imageKeys.findSome? fun key =>
    (stringProperty? props key).map fun image =>
      { image, imageKey := key, slot
        hasWidth := hasProperty props slot.widthKey
        hasHeight := hasProperty props slot.heightKey }

/-- The images of an object, if it has any. -/
def CollectionItem.ofExpr? (slots : List ImageSlot) : Expr → Option CollectionItem
  | .object props span =>
    let found := slots.filterMap (ItemImage.find? props)
    if found.isEmpty then none else some ⟨span, found⟩
  | _ => none

def CollectionArguments.read (t : Text) (slots : List ImageSlot) :
    Except ArgumentError CollectionArguments := do
  match ← readArguments t with
  | [] => .error (.missing .data)
  | .array elements _ :: _ =>
    let items := elements.filterMap (CollectionItem.ofExpr? slots)
    if items.isEmpty then .error .noUsableItem else .ok ⟨.array, items⟩
  | .object props span :: _ =>
    match CollectionItem.ofExpr? slots (.object props span) with
    | some item => .ok ⟨.object, [item]⟩
    | none => .error .noImageKey
  | _ => .error .notArrayOrObject

end PugSize
