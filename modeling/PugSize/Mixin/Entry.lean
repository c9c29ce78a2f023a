import PugSize.Text.Blank
import PugSize.Toml.Value
import PugSize.Mixin.Rule

/-!
Entries of `target_rules`. An entry is a table, or an array of its fields in order. A field of the
wrong type, a field written in two spellings or an array that is too long spoils the whole entry;
unknown fields are passed over.
-/

namespace PugSize

open Toml (Value)

namespace Toml

/-- A string; a date or time counts as its text. -/
def Value.text? : Value → Option Text
  | .string t => some t
  | .dateTime d => some d.text.toList
  | _ => none

end Toml

/-- An image slot as an entry gives it. -/
structure SlotEntry where
  imageKeys : List Text
  widthKey : Text
  heightKey : Text

structure RuleEntry where
  name : Text
  typeName : Text
  pcKey : Option Text
  spKey : Option Text
  pcWidthKey : Option Text
  pcHeightKey : Option Text
  spWidthKey : Option Text
  spHeightKey : Option Text
  slots : List SlotEntry

namespace RuleEntry

/-- A field by its index in an array or by its spellings in a table. A field that is absent has no
value; `none` if two spellings are present. -/
def field? (v : Value) (index : Nat) (spellings : List String) : Option (Option Value) :=
  match v with
  | .array items => some items[index]?
  | .table entries =>
    match entries.filter fun (key, _) => String.ofList key ∈ spellings with
    | [] => some none
    | [(_, value)] => some (some value)
    | _ => none
  | _ => none

/-- A field read by `read`, or `absent` if it is not there. -/
def fieldOr? {α : Type} (v : Value) (index : Nat) (spellings : List String) (absent : α)
    (read : Value → Option α) : Option α :=
  (field? v index spellings).bind fun
    | none => some absent
    | some value => read value

def textField? (v : Value) (index : Nat) (spellings : List String) : Option Text :=
  fieldOr? v index spellings [] Value.text?

def optionalField? (v : Value) (index : Nat) (spellings : List String) : Option (Option Text) :=
  fieldOr? v index spellings none fun value => value.text?.map some

/-- One text or a list of them. -/
def textList? : Value → Option (List Text)
  | .array items => items.mapM Value.text?
  | value => value.text?.map ([·])

/-- Whether a value can hold the given number of fields. -/
def holdsFields (count : Nat) : Value → Bool
  | .array items => items.length ≤ count
  | .table _ => true
  | _ => false

def slot? (v : Value) : Option SlotEntry := do
  guard (holdsFields 3 v)
  let imageKeys ←
    fieldOr? v 0 ["image_key", "imageKey", "image_keys", "imageKeys"] [] textList?
  let widthKey ← textField? v 1 ["width_key", "widthKey"]
  let heightKey ← textField? v 2 ["height_key", "heightKey"]
  pure { imageKeys, widthKey, heightKey }

def slotList? : Value → Option (List SlotEntry)
  | .array items => items.mapM slot?
  | _ => none

def ofValue? (v : Value) : Option RuleEntry := do
  guard (holdsFields 9 v)
  let name ← textField? v 0 ["name"]
  let typeName ← textField? v 1 ["type"]
  let pcKey ← optionalField? v 2 ["pc_key", "pcKey"]
  let spKey ← optionalField? v 3 ["sp_key", "spKey"]
  let pcWidthKey ← optionalField? v 4 ["pc_width_key", "pcWidthKey"]
  let pcHeightKey ← optionalField? v 5 ["pc_height_key", "pcHeightKey"]
  let spWidthKey ← optionalField? v 6 ["sp_width_key", "spWidthKey"]
  let spHeightKey ← optionalField? v 7 ["sp_height_key", "spHeightKey"]
  let slots ← fieldOr? v 8 ["sources"] [] slotList?
  pure { name, typeName, pcKey, spKey, pcWidthKey, pcHeightKey, spWidthKey, spHeightKey, slots }

/-- A mixin name without the call syntax around it. -/
def plainName (t : Text) : Text :=
  let t := Text.trim t
  let t := if t.head? = some '+' then t.drop 1 else t
  let t := if t.getLast? = some '(' then t.dropLast else t
  Text.trim t

/-- A key, or the given one if it is absent or blank. -/
def keyOr (key : Option Text) (standard : Text) : Text :=
  match key.map Text.trim with
  | some (c :: cs) => c :: cs
  | _ => standard

def optionKeys (e : RuleEntry) : OptionKeys where
  pc := keyOr e.pcKey OptionKeys.standard.pc
  sp := keyOr e.spKey OptionKeys.standard.sp
  pcWidth := keyOr e.pcWidthKey OptionKeys.standard.pcWidth
  pcHeight := keyOr e.pcHeightKey OptionKeys.standard.pcHeight
  spWidth := keyOr e.spWidthKey OptionKeys.standard.spWidth
  spHeight := keyOr e.spHeightKey OptionKeys.standard.spHeight

/-- A slot with its keys trimmed, if it has an image key, a width key and a height key. -/
def SlotEntry.usable? (s : SlotEntry) : Option ImageSlot :=
  let imageKeys := (s.imageKeys.map Text.trim).filter fun key => !key.isEmpty
  let widthKey := Text.trim s.widthKey
  let heightKey := Text.trim s.heightKey
  if imageKeys.isEmpty || widthKey.isEmpty || heightKey.isEmpty then none
  else some { imageKeys, widthKey, heightKey }

/-- What an entry with a name and a type amounts to. -/
inductive Reading
  | rule (rule : Rule)
  | unsupported (name typeName : Text)
  | unusable

def isType (t : Text) (names : List String) : Bool := String.ofList t ∈ names

/-- The reading of an entry under its normalized name and type. -/
def reading (name typeName : Text) (e : RuleEntry) : Reading :=
  if isType typeName ["positional", "imgArgs"] then .rule ⟨name, .positional⟩
  else if isType typeName ["optionsObject", "pictureOpts"] then
    .rule ⟨name, .options e.optionKeys⟩
  else if isType typeName ["dataCollection", "dataArray"] then
    match e.slots.filterMap SlotEntry.usable? with
    | [] => .unusable
    | slots => .rule ⟨name, .collection slots⟩
  else .unsupported name typeName

end RuleEntry
end PugSize
