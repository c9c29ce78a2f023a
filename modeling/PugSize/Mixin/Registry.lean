import PugSize.Mixin.Entry

/-!
The rules by mixin name. Entries without a name or a type are dropped, of entries with the same
name and type the first counts, and a registry without any rule falls back to two standard ones.
-/

namespace PugSize

/-- A mixin with a type that no shape is known for. -/
structure ShapelessRule where
  name : Text
  typeName : Text
deriving DecidableEq

structure Registry where
  rules : List Rule
  unsupported : List ShapelessRule
deriving DecidableEq

inductive Lookup
  | rule (rule : Rule)
  | unsupported (rule : ShapelessRule)
  | unknown
deriving DecidableEq

namespace Registry

def fallbackRules : List Rule :=
  [⟨"img".toList, .positional⟩, ⟨"picture".toList, .options OptionKeys.standard⟩]

/-- An entry with its normalized name and type, if it has both. -/
def named? (v : Toml.Value) : Option ((Text × Text) × RuleEntry) :=
  (RuleEntry.ofValue? v).bind fun e =>
    let name := RuleEntry.plainName e.name
    let typeName := Text.trim e.typeName
    if name.isEmpty || typeName.isEmpty then none else some ((name, typeName), e)

/-- The first of the members with each key, in order. -/
def firstByKey {κ α : Type} [BEq κ] (seen : List κ) : List (κ × α) → List (κ × α)
  | [] => []
  | (k, a) :: rest =>
    if seen.contains k then firstByKey seen rest else (k, a) :: firstByKey (k :: seen) rest

/-- The readings of the entries that count. -/
def readings (entries : List Toml.Value) : List RuleEntry.Reading :=
  (firstByKey [] (entries.filterMap named?)).map fun ((name, typeName), e) =>
    e.reading name typeName

def ofEntries (entries : List Toml.Value) : Registry :=
  let found := readings entries
  let rules := found.filterMap fun
    | .rule r => some r
    | _ => none
  let unsupported := found.filterMap fun
    | .unsupported name typeName => some ⟨name, typeName⟩
    | _ => none
  ⟨if rules.isEmpty then fallbackRules else rules, unsupported⟩

/-- The names of all mixins, each once, those with a rule first. -/
def names (r : Registry) : List Text :=
  (r.rules.map Rule.name ++ r.unsupported.map ShapelessRule.name).eraseDups

/-- The first rule with a name, or else the first unsupported one. -/
def lookup (r : Registry) (name : Text) : Lookup :=
  match r.rules.find? fun rule => rule.name == name with
  | some rule => .rule rule
  | none =>
    match r.unsupported.find? fun rule => rule.name == name with
    | some rule => .unsupported rule
    | none => .unknown

/-- A table of strings and of other values, in the order of the keys. -/
def stringTable (entries : List (String × String)) : List (Text × Toml.Value) :=
  entries.map fun (key, value) => (key.toList, .string value.toList)

/-- The entries of a new configuration file. -/
def starterEntries : List Toml.Value :=
  let source image width height :=
    Toml.Value.table (stringTable [("height_key", height), ("image_key", image), ("width_key", width)])
  [.table (stringTable [("name", "img"), ("type", "positional")]),
   .table (stringTable [("name", "picture"), ("type", "optionsObject")]),
   .table
     (("name".toList, .string "c_cards".toList) ::
      ("sources".toList,
        .array [source "image" "width" "height", source "imageSp" "widthSp" "heightSp"]) ::
      stringTable [("type", "dataCollection")])]

end Registry
end PugSize
