import PugSize.Mixin.Arguments
import PugSize.Mixin.Call
import PugSize.Mixin.Registry
import PugSize.Edit.ObjectText
import PugSize.Image.ImageError

/-!
The edit that writes image sizes into the call around a place. The call is located, its arguments
are read in the shape of its rule, every image is looked up, and the sizes are written into the
argument text. Looking up may keep a state, such as the questions asked so far, and nothing is
edited before all images are known.
-/

namespace PugSize

structure SizeRequest where
  cursor : Position
  display : Display
  overwrite : Bool
  /-- Mixin names to look for beside those with a rule. -/
  extraNames : List Text
deriving DecidableEq

/-- New text for what stands between the parentheses of a call. -/
structure CallEdit where
  name : Text
  start : Position
  stop : Position
  newText : Text
deriving DecidableEq

inductive SizingError
  | noCall
  | unknownRule (name : Text)
  | unsupportedShape (name typeName : Text)
  | arguments (error : ArgumentError)
  | resolution (error : ImageError)
deriving DecidableEq

namespace SizingError

def message : SizingError → String
  | .noCall => "No mixin call found at the cursor."
  | .unknownRule name =>
    s!"Found +{String.ofList name}(...), but no target rule is configured for it."
  | .unsupportedShape name typeName =>
    s!"Found +{String.ofList name}(...), but rule type `{String.ofList typeName}` is not supported."
  | .arguments error => error.message
  | .resolution error => error.message

/-- Whether there was just nothing to do. -/
def isBenign : SizingError → Bool
  | .noCall | .unknownRule _ | .unsupportedShape _ _ => true
  | _ => false

end SizingError

/-- How the size of an image is found out, given the path that the document has for it. -/
abbrev Resolver (σ : Type) := Text → StateM σ (Except ImageError Size)

namespace Insert

variable {σ : Type}

/-- Planning an edit: it may fail, and the state of looking up outlives a failure. -/
abbrev Plan (σ : Type) := ExceptT SizingError (StateM σ)

def lookUp (resolve : Resolver σ) (image : Text) : Plan σ Size :=
  ExceptT.mk do return (← resolve image).mapError .resolution

def parsed {α : Type} (result : Except ArgumentError α) : Plan σ α :=
  ExceptT.mk (pure (result.mapError .arguments))

def scaledSize (resolve : Resolver σ) (request : SizeRequest) (image : Text) : Plan σ Size := do
  return (← lookUp resolve image).scale request.display

/-- The width and the height of an image as properties. -/
def sizeEdits (widthKey heightKey : Text) (size : Size) : List PropertyEdit :=
  [⟨widthKey, decimal size.width⟩, ⟨heightKey, decimal size.height⟩]

def intoPositional (resolve : Resolver σ) (request : SizeRequest) (t : Text) : Plan σ Text := do
  let found ← parsed (PositionalArguments.read t)
  let size ← scaledSize resolve request found.file
  return Slots.write t found.spans size request.overwrite

/-- An object of the argument text with properties written into it. -/
def objectReplacement (t : Text) (request : SizeRequest) (span : Span)
    (edits : List PropertyEdit) : Replacement :=
  ⟨span, ObjectText.writeAll request.overwrite (t.slice span) edits⟩

def intoOptions (resolve : Resolver σ) (request : SizeRequest) (keys : OptionKeys) (t : Text) :
    Plan σ Text := do
  let found ← parsed (OptionArguments.read t keys)
  let roles := [(found.pc, keys.pcWidth, keys.pcHeight), (found.sp, keys.spWidth, keys.spHeight)]
  let edits ← roles.mapM fun (image, widthKey, heightKey) =>
    match image with
    | none => pure []
    | some image => return sizeEdits widthKey heightKey (← scaledSize resolve request image)
  return Replacement.applyAll t [objectReplacement t request found.span edits.flatten]

/-- The edits of an item, one image after the other. -/
def itemEdits (resolve : Resolver σ) (request : SizeRequest) (item : CollectionItem) :
    Plan σ (List PropertyEdit) := do
  let edits ← item.images.mapM fun m =>
    return sizeEdits m.slot.widthKey m.slot.heightKey (← scaledSize resolve request m.image)
  return edits.flatten

/-- Items are worked on from the last to the first. -/
def intoCollection (resolve : Resolver σ) (request : SizeRequest) (slots : List ImageSlot)
    (t : Text) : Plan σ Text := do
  let found ← parsed (CollectionArguments.read t slots)
  let items := found.items.mergeSort fun a b => b.span.start ≤ a.span.start
  let replacements ← items.mapM fun item =>
    return objectReplacement t request item.span (← itemEdits resolve request item)
  return Replacement.applyAll t replacements

/-- The argument text of a call with the sizes of its images. -/
def intoShape (resolve : Resolver σ) (request : SizeRequest) (t : Text) : Shape → Plan σ Text
  | .positional => intoPositional resolve request t
  | .options keys => intoOptions resolve request keys t
  | .collection slots => intoCollection resolve request slots t

/-- The mixin names to look for. -/
def names (registry : Registry) (request : SizeRequest) : List Text :=
  request.extraNames.foldl
    (fun known extra =>
      let name := RuleEntry.plainName extra
      if name.isEmpty || known.contains name then known else known ++ [name])
    registry.names

/-- The edit for the call around the cursor. -/
def plan (b : Buffer) (request : SizeRequest) (registry : Registry) (resolve : Resolver σ) :
    Plan σ CallEdit := do
  let some call := MixinCall.locate? b request.cursor (names registry request)
    | throw .noCall
  match registry.lookup call.name with
  | .unknown => throw (.unknownRule call.name)
  | .unsupported rule => throw (.unsupportedShape call.name rule.typeName)
  | .rule rule =>
    let newText ← intoShape resolve request call.arguments rule.shape
    let (start, stop) := call.argumentsExtent
    return { name := call.name, start, stop, newText }

/-- The document after an edit. -/
def apply (b : Buffer) (edit : CallEdit) : Except RangeError Buffer :=
  b.replace edit.start edit.stop edit.newText

end Insert
end PugSize
