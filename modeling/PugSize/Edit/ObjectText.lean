import PugSize.Text.Blank
import PugSize.Text.Lines
import PugSize.Text.Word
import PugSize.Edit.CharClass
import PugSize.Edit.Slots

/-!
Properties written into the text of an object literal. The value of a property that is there is
exchanged in place; a property that is missing is added behind the last one, on a line of its own
if the closing brace stands on one. Nothing else in the text changes.
-/

namespace PugSize

/-- A property to be written. -/
structure PropertyEdit where
  key : Text
  value : Text
deriving DecidableEq

def PropertyEdit.text (e : PropertyEdit) : Text := e.key ++ ": ".toList ++ e.value

namespace ObjectText

/-- How many characters at the front are the key between the given quotes, a colon and the white
space around it. -/
def keyLengthIn? (quote key t : Text) : Option Nat :=
  let name := quote ++ key ++ quote
  if name.isPrefixOf t then
    let rest := t.drop name.length
    let gap := (rest.takeWhile Text.isBlank).length
    match rest.drop gap with
    | ':' :: more => some (name.length + gap + 1 + (more.takeWhile Text.isBlank).length)
    | _ => none
  else none

/-- As `keyLengthIn?`, for the quotes that the text has, and else for none. -/
def keyLength? (key t : Text) : Option Nat :=
  match t with
  | [] => none
  | c :: _ =>
    if c = '"' ∨ c = '\'' then (keyLengthIn? [c] key t).or (keyLengthIn? [] key t)
    else keyLengthIn? [] key t

/-- Whether a name may begin behind the given characters, the last of which comes first. -/
def isNameStart (before : List (Char × CharClass)) : Bool :=
  match before with
  | [] => true
  | (c, _) :: _ => !(Text.isWord c || c == '$')

/-- Whether a property begins behind the given characters, the last of which comes first: white
space and comments apart, they end with the opening brace or with a comma of the object. -/
def isPropertyStart (before : List (Char × CharClass)) : Bool :=
  match before.dropWhile fun (c, k) => k == .comment || Text.isBlank c with
  | (c, k) :: _ => (c == '{' && k == .code 0) || (c == ',' && k == .code 1)
  | [] => false

/-- How many characters stand before the value of each property with the key. A key is looked for
behind the one found before it, so `skip` characters of that are passed over. -/
def valueStarts (key : Text) (skip : Nat) (before : List (Char × CharClass)) :
    List (Char × CharClass) → List Nat
  | [] => []
  | x :: rest =>
    match skip with
    | n + 1 => valueStarts key n (x :: before) rest
    | 0 =>
      match if isNameStart before then keyLength? key ((x :: rest).map Prod.fst) else none with
      | none => valueStarts key 0 (x :: before) rest
      | some n =>
        let later := valueStarts key (n - 1) (x :: before) rest
        if x.2 == .code 1 && isPropertyStart before then (before.length + n) :: later else later

/-- Whether the value of a property ends before the character. -/
def endsValue : Char × CharClass → Bool
  | (_, .comment) => true
  | (c, .code 1) => c == ',' || c == '}' || c == '\n'
  | _ => false

/-- The span of the value of the last property with the key. -/
def valueSpan? (t key : Text) : Option Span :=
  let marked := t.zip (CharClass.ofText t)
  (valueStarts key 0 [] marked).getLast?.map fun n =>
    let value := ((marked.drop n).takeWhile fun x => !endsValue x).map Prod.fst
    let start := Text.width (t.take n)
    ⟨start, start + Text.width (Text.trimEnd value)⟩

/-- A text cut before the last place of a character. -/
def cutAtLast? (c : Char) (t : Text) : Option (Text × Text) :=
  match t.reverse.dropWhile (· != c) with
  | [] => none
  | _ :: before => some (before.reverse, t.drop before.length)

/-- A property added before the closing brace, on the line that it ends. -/
def addInline (head tail prop : Text) : Text :=
  let body := Text.trimEnd head
  let gap := head.drop body.length
  match body.getLast? with
  | some '{' => body ++ ' ' :: prop ++ ' ' :: tail
  | some ',' => body ++ ' ' :: prop ++ gap ++ tail
  | _ => body ++ ", ".toList ++ prop ++ gap ++ tail

def isAsciiBlank (c : Char) : Bool :=
  c == ' ' || c == '\t' || c == '\n' || c == '\x0c' || c == '\r'

/-- A text with a comma behind its last character of code, unless that is a comma or an opening
bracket. -/
def withComma (marked : List (Char × CharClass)) : Text :=
  let isLast : Char × CharClass → Bool := fun (c, k) => k.isCode && !isAsciiBlank c
  let after := (marked.reverse.takeWhile fun x => !isLast x).reverse.map Prod.fst
  match marked.reverse.dropWhile fun x => !isLast x with
  | [] => after
  | (c, k) :: before =>
    let upTo := ((c, k) :: before).reverse.map Prod.fst
    if c == ',' || CharClass.isOpening c then upTo ++ after else upTo ++ ',' :: after

/-- The indentation of the last line behind the first one that is not blank; without such a line,
one step more than the closing brace. -/
def propertyIndent (lead closeIndent : Text) : Text :=
  match ((Text.splitLines lead).drop 1).filter (fun l => !Text.isAllBlank l) |>.getLast? with
  | some l => l.takeWhile Text.isBlank
  | none => closeIndent ++ if '\t' ∈ closeIndent then ['\t'] else [' ', ' ']

/-- A property added on a line of its own. `lead` ends with the line feed before the line of the
closing brace, `closeIndent` is the white space on that line. -/
def addLine (lead closeIndent tail prop : Text) : Text :=
  let marked := lead.zip (CharClass.ofText (lead ++ closeIndent ++ tail))
  withComma marked ++ propertyIndent lead closeIndent ++ prop ++ '\n' :: closeIndent ++ tail

/-- A property added behind the last one. -/
def append (t prop : Text) : Text :=
  match cutAtLast? '}' t with
  | none => t
  | some (head, tail) =>
    match cutAtLast? '\n' head with
    | some (lines, line) =>
      let closeIndent := line.drop 1
      if Text.isAllBlank closeIndent then addLine (lines ++ ['\n']) closeIndent tail prop
      else addInline head tail prop
    | none => addInline head tail prop

/-- A property written into an object. A value that is there is kept if it is not to be
overwritten and stands for something. -/
def write (overwrite : Bool) (t : Text) (e : PropertyEdit) : Text :=
  match valueSpan? t e.key with
  | some span =>
    if overwrite || isVacant (t.slice span) then t.splice span e.value else t
  | none => append t e.text

/-- Properties written one after the other. -/
def writeAll (overwrite : Bool) (t : Text) (edits : List PropertyEdit) : Text :=
  edits.foldl (write overwrite) t

end ObjectText
end PugSize
