import Mathlib
import PugSize.Proofs.Number.Whole
import PugSize.Run
import PugSize.Script.Quoted

/-!
The edit that a run prints, read back. A reader of JSON that knows nothing of the printing, neither its
order of fields nor its white space, gets the printed value out of the text, and from it the edit by the
names of the fields.
-/

namespace PugSize

namespace Json

/-- White space between the parts of a value. -/
def isGap (c : Char) : Bool := c == ' ' || c == '\t' || c == '\n' || c == '\r'

def skipGap (t : Text) : Text := t.dropWhile isGap

/-- What a backslash and a character stand for. -/
def escaped? : Char → Option Char
  | '"' => some '"'
  | '\\' => some '\\'
  | '/' => some '/'
  | 'b' => some '\x08'
  | 'f' => some '\x0c'
  | 'n' => some '\n'
  | 'r' => some '\r'
  | 't' => some '\t'
  | _ => none

/-- The first character of what stands before a closing quotation mark, and what follows it. Control
characters stand there with an escape only. -/
def character? : Text → Option (Char × Text)
  | '\\' :: 'u' :: a :: b :: c :: d :: rest =>
    ((Script.Quoted.digits? 0 [a, b, c, d]).filter fun n => n.isValidChar).map (Char.ofNat ·, rest)
  | '\\' :: c :: rest => (escaped? c).map (·, rest)
  | c :: rest => if c.toNat < 32 ∨ c ∈ ['"', '\\'] then none else some (c, rest)
  | [] => none

/-- The characters up to a closing quotation mark, and what stands behind it. -/
def characters? : Nat → Text → Option (Text × Text)
  | 0, _ => none
  | _ + 1, '"' :: rest => some ([], rest)
  | fuel + 1, t => do
    let (c, t) ← character? t
    let (cs, rest) ← characters? fuel t
    return (c :: cs, rest)

/-- A string behind its opening quotation mark. -/
def string? (t : Text) : Option (Text × Text) := characters? (t.length + 1) t

/-- The name of a field, up to the colon behind it. -/
def key? (t : Text) : Option (String × Text) :=
  match skipGap t with
  | '"' :: t => do
    let (key, t) ← string? t
    match skipGap t with
    | ':' :: rest => return (String.ofList key, rest)
    | _ => none
  | _ => none

def number? (t : Text) : Option (Json × Text) :=
  (natural? (t.takeWhile Char.isDigit)).map (.number ·, t.dropWhile Char.isDigit)

mutual

/-- The value at the beginning of a text, and what stands behind it. -/
def value? : Nat → Text → Option (Json × Text)
  | 0, _ => none
  | fuel + 1, t =>
    match skipGap t with
    | '"' :: rest => (string? rest).map fun (s, rest) => (.string s, rest)
    | '{' :: rest =>
      match skipGap rest with
      | '}' :: rest => some (.object [], rest)
      | rest => (entries? fuel rest).map fun (entries, rest) => (.object entries, rest)
    | rest => number? rest

/-- The fields up to a closing brace, at least one. -/
def entries? : Nat → Text → Option (List (String × Json) × Text)
  | 0, _ => none
  | fuel + 1, t => do
    let (key, t) ← key? t
    let (v, t) ← value? fuel t
    match skipGap t with
    | ',' :: t => (entries? fuel t).map fun (entries, rest) => ((key, v) :: entries, rest)
    | '}' :: rest => return ([(key, v)], rest)
    | _ => none

end

/-- The value that a text is, white space around it apart. -/
def read? (t : Text) : Option Json :=
  match value? (t.length + 1) t with
  | some (j, rest) => if (skipGap rest).isEmpty then some j else none
  | none => none

@[simp] theorem skipGap_replicate (n : Nat) (t : Text) :
    skipGap (List.replicate n ' ' ++ t) = skipGap t := by
  refine List.dropWhile_append_of_pos fun c hc => ?_
  rw [List.eq_of_mem_replicate hc]
  rfl

theorem skipGap_of_not {c : Char} (h : isGap c = false) (t : Text) : skipGap (c :: t) = c :: t :=
  List.dropWhile_cons_of_neg (by rw [h]; exact Bool.false_ne_true)

theorem skipGap_skipGap (t : Text) : skipGap (skipGap t) = skipGap t := List.dropWhile_idempotent _ t

/-! ## Strings -/

theorem character?_control : ∀ n < 32, Script.Quoted.digits? 0
    ['0', '0', hexDigit (n / 16), hexDigit n] = some n := by
  decide

/-- A printed character is read as itself. -/
theorem character?_escapeChar (c : Char) (rest : Text) :
    character? (escapeChar c ++ rest) = some (c, rest) := by
  unfold escapeChar
  split
  iterate 7 rfl
  rename_i hquote hslash _ _ _ _ _
  split
  · rename_i hcontrol
    have hvalid : c.toNat.isValidChar := c.valid
    simp [character?, character?_control c.toNat hcontrol, hvalid, Option.filter]
  · rename_i hplain
    rw [List.singleton_append]
    unfold character?
    split
    · rename_i heq
      exact absurd (List.cons.inj heq).1 hslash
    · rename_i heq
      exact absurd (List.cons.inj heq).1 hslash
    · rename_i heq
      obtain ⟨rfl, rfl⟩ := List.cons.inj heq
      have hnone : c ∉ ['"', '\\'] := by simpa using ⟨hquote, hslash⟩
      rw [if_neg (not_or.2 ⟨hplain, hnone⟩)]
    · cases ‹_ :: _ = []›

theorem escapeChar_head (c : Char) : ∃ d ds, escapeChar c = d :: ds ∧ d ≠ '"' := by
  unfold escapeChar
  split
  iterate 7 exact ⟨_, _, rfl, by decide⟩
  split
  · exact ⟨_, _, rfl, by decide⟩
  · exact ⟨_, _, rfl, by assumption⟩

theorem characters?_flatMap (t : Text) {fuel : Nat} (hfuel : t.length < fuel) (rest : Text) :
    characters? fuel (t.flatMap escapeChar ++ '"' :: rest) = some (t, rest) := by
  induction t generalizing fuel with
  | nil =>
      obtain ⟨fuel, rfl⟩ := Nat.exists_eq_succ_of_ne_zero (Nat.ne_of_gt hfuel)
      rfl
  | cons c cs ih =>
      obtain ⟨fuel, rfl⟩ := Nat.exists_eq_succ_of_ne_zero (Nat.ne_of_gt (Nat.zero_lt_of_lt hfuel))
      obtain ⟨d, ds, hescape, hd⟩ := escapeChar_head c
      have hcharacter := character?_escapeChar c (cs.flatMap escapeChar ++ '"' :: rest)
      rw [List.flatMap_cons, List.append_assoc, hescape, List.cons_append]
      rw [hescape, List.cons_append] at hcharacter
      rw [characters?.eq_3 _ _ fun _ heq => hd (List.cons.inj heq).1, hcharacter]
      simp [ih (Nat.lt_of_succ_lt_succ hfuel)]

theorem length_le_flatMap (t : Text) : t.length ≤ (t.flatMap escapeChar).length := by
  induction t with
  | nil => exact Nat.le_refl _
  | cons c cs ih =>
      obtain ⟨d, ds, hescape, -⟩ := escapeChar_head c
      rw [List.flatMap_cons, hescape, List.length_append, List.length_cons, List.length_cons]
      omega

theorem string?_quote (t rest : Text) :
    string? (t.flatMap escapeChar ++ '"' :: rest) = some (t, rest) := by
  have hlength := length_le_flatMap t
  refine characters?_flatMap t ?_ rest
  rw [List.length_append]
  omega

theorem quote_append (t rest : Text) : quote t ++ rest = '"' :: (t.flatMap escapeChar ++ '"' :: rest) := by
  rw [quote, List.cons_append, List.cons_append, List.append_assoc, List.singleton_append]

theorem key?_quote (n : Nat) (key : String) (rest : Text) :
    key? (List.replicate n ' ' ++ (quote key.toList ++ ':' :: rest)) = some (key, rest) := by
  rw [key?, skipGap_replicate, quote_append, skipGap_of_not (by decide)]
  simp only [string?_quote, Option.bind_eq_bind, Option.bind_some]
  rw [skipGap_of_not (by decide)]
  simp

/-! ## Values -/

mutual

/-- The number of values and fields in a value. -/
def size : Json → Nat
  | .number _ => 1
  | .string _ => 1
  | .object entries => entriesSize entries + 1

def entriesSize : List (String × Json) → Nat
  | [] => 0
  | (_, v) :: entries => v.size + entriesSize entries + 1

end

/-- Whether what stands behind a number is no part of it. -/
def Ends (rest : Text) : Prop := ∀ c ∈ rest.head?, c.isDigit = false

theorem number?_decimal (n : Nat) {rest : Text} (hrest : Ends rest) :
    number? (decimal n ++ rest) = some (.number n, rest) := by
  obtain ⟨hsome, hdigits⟩ := isDigits_decimal n
  have hstop : ∀ d ds, rest = d :: ds → ¬ d.isDigit = true := by
    rintro d ds rfl
    rw [hrest d rfl]
    exact Bool.false_ne_true
  have htake : (decimal n ++ rest).takeWhile Char.isDigit = decimal n := by
    rw [List.takeWhile_append_of_pos hdigits]
    cases rest with
    | nil => rw [List.takeWhile_nil, List.append_nil]
    | cons d ds => rw [List.takeWhile_cons_of_neg (hstop d ds rfl), List.append_nil]
  have hdrop : (decimal n ++ rest).dropWhile Char.isDigit = rest := by
    rw [List.dropWhile_append_of_pos hdigits]
    cases rest with
    | nil => rfl
    | cons d ds => exact List.dropWhile_cons_of_neg (hstop d ds rfl)
  have hnatural : natural? (decimal n) = some n := by
    rw [natural?, if_neg (by simpa using ⟨hsome, hdigits⟩), digitsValue_decimal]
  rw [number?, htake, hdrop, hnatural]
  rfl

theorem value?_number (n fuel : Nat) {rest : Text} (hrest : Ends rest) :
    value? (fuel + 1) (decimal n ++ rest) = some (.number n, rest) := by
  have hnumber := number?_decimal n hrest
  obtain ⟨hsome, hdigits⟩ := isDigits_decimal n
  obtain ⟨c, cs, hchars⟩ := List.exists_cons_of_ne_nil hsome
  have hc : c.isDigit = true := hdigits c (by rw [hchars]; exact List.mem_cons_self)
  have hother : ∀ d, d.isDigit = false → c ≠ d := by
    rintro d hd rfl
    exact absurd hc (by rw [hd]; exact Bool.false_ne_true)
  have hgap : isGap c = false := by
    simp [isGap, hother ' ' rfl, hother '\t' rfl, hother '\n' rfl, hother '\r' rfl]
  rw [hchars, List.cons_append] at hnumber ⊢
  rw [value?, skipGap_of_not hgap]
  split
  · exact absurd (List.cons.inj ‹_›).1 (hother '"' rfl)
  · exact absurd (List.cons.inj ‹_›).1 (hother '\x7b' rfl)
  · exact hnumber

theorem value?_blank (fuel : Nat) (t : Text) : value? fuel (' ' :: t) = value? fuel t := by
  cases fuel <;> rfl

theorem entries?_skipGap (fuel : Nat) (t : Text) : entries? fuel (skipGap t) = entries? fuel t := by
  cases fuel with
  | zero => rfl
  | succ fuel => rw [entries?, entries?, key?, key?, skipGap_skipGap]

theorem entries?_lineFeed (fuel : Nat) (t : Text) : entries? fuel ('\n' :: t) = entries? fuel t := by
  have hskip : skipGap ('\n' :: t) = skipGap t := rfl
  rw [← entries?_skipGap, hskip, entries?_skipGap]

theorem value?_object {t behind : Text} (h : skipGap t = '"' :: behind) (fuel : Nat) :
    value? (fuel + 1) ('{' :: t) =
      (entries? fuel t).map fun (entries, rest) => (.object entries, rest) := by
  rw [value?, skipGap_of_not (by decide), ← entries?_skipGap, h]
  simp only [h]
  rfl

/-- A printed field with what stands behind it: a comma and more fields, or the closing brace. -/
theorem entries?_line {key : String} {v : Json} {indent fuel : Nat} {rest : Text}
    (hv : value? fuel (v.pretty indent ++ rest) = some (v, rest)) :
    entries? (fuel + 1) (List.replicate indent ' ' ++ quote key.toList ++ ": ".toList ++
        v.pretty indent ++ rest) =
      match skipGap rest with
      | ',' :: t => (entries? fuel t).map fun (entries, rest) => ((key, v) :: entries, rest)
      | '}' :: rest => some ([(key, v)], rest)
      | _ => none := by
  have hkey := key?_quote indent key (' ' :: (v.pretty indent ++ rest))
  have hcolon : ": ".toList = [':', ' '] := rfl
  rw [hcolon]
  simp only [List.append_assoc, List.cons_append, List.nil_append]
  rw [entries?, hkey, Option.bind_eq_bind, Option.bind_some]
  dsimp only
  rw [value?_blank, hv]
  rfl

/-- The first thing in the lines of an object is the name of a field. -/
theorem skipGap_lines (indent : Nat) (entry : String × Json) (entries : List (String × Json))
    (rest : Text) : ∃ t, skipGap (List.intercalate [',', '\n']
      (prettyEntries indent (entry :: entries)) ++ rest) = '"' :: t := by
  obtain ⟨key, v⟩ := entry
  have hline (front behind : Text) : ∃ t, skipGap (List.replicate indent ' ' ++
      quote key.toList ++ front ++ behind) = '"' :: t := by
    rw [List.append_assoc, List.append_assoc, skipGap_replicate, quote_append,
      skipGap_of_not (by decide)]
    exact ⟨_, rfl⟩
  rw [prettyEntries]
  cases entries with
  | nil =>
      rw [prettyEntries, List.intercalate_singleton, List.append_assoc _ ": ".toList]
      exact hline _ _
  | cons second more =>
      rw [prettyEntries, List.intercalate_cons_cons, List.append_assoc _ ": ".toList,
        List.append_assoc, List.append_assoc]
      exact hline _ _

mutual

theorem value?_pretty (j : Json) (indent : Nat) : ∀ {fuel : Nat}, j.size ≤ fuel → ∀ {rest : Text},
    Ends rest → value? fuel (j.pretty indent ++ rest) = some (j, rest) := by
  cases j with
  | number n =>
      intro fuel hfuel rest hrest
      obtain ⟨fuel, rfl⟩ := Nat.exists_eq_succ_of_ne_zero (Nat.ne_of_gt hfuel)
      exact value?_number n fuel hrest
  | string t =>
      intro fuel hfuel rest _
      obtain ⟨fuel, rfl⟩ := Nat.exists_eq_succ_of_ne_zero (Nat.ne_of_gt hfuel)
      rw [pretty, quote_append, value?, skipGap_of_not (by decide)]
      simp only [string?_quote, Option.map_some]
  | object entries =>
      intro fuel hfuel rest _
      rw [size] at hfuel
      obtain ⟨fuel, rfl⟩ := Nat.exists_eq_succ_of_ne_zero (Nat.ne_of_gt (Nat.zero_lt_of_lt hfuel))
      cases entries with
      | nil => rfl
      | cons entry entries =>
          have hentries := @entries?_pretty entry entries (indent + 2) indent fuel
            (Nat.le_of_succ_le_succ hfuel) rest
          obtain ⟨t, ht⟩ := skipGap_lines (indent + 2) entry entries
            ('\n' :: (List.replicate indent ' ' ++ '}' :: rest))
          have hopen : skipGap ('\n' :: (List.intercalate [',', '\n']
              (prettyEntries (indent + 2) (entry :: entries)) ++
                '\n' :: (List.replicate indent ' ' ++ '}' :: rest))) = '"' :: t := ht
          rw [pretty.eq_4 _ _ (List.cons_ne_nil _ _)]
          simp only [List.append_assoc, List.cons_append, List.nil_append]
          rw [value?_object hopen, entries?_lineFeed, hentries]
          rfl
termination_by j.size
decreasing_by
  rw [size]
  exact Nat.lt_succ_self _

theorem entries?_pretty (entry : String × Json) (entries : List (String × Json))
    (indent outer : Nat) : ∀ {fuel : Nat}, entriesSize (entry :: entries) ≤ fuel → ∀ {rest : Text},
    entries? fuel (List.intercalate [',', '\n'] (prettyEntries indent (entry :: entries)) ++
      '\n' :: (List.replicate outer ' ' ++ '}' :: rest)) = some (entry :: entries, rest) := by
  obtain ⟨key, v⟩ := entry
  have hbehind (c : Char) (hc : c.isDigit = false) (t : Text) : Ends (c :: t) := by
    rintro d hd
    cases hd
    exact hc
  cases entries with
  | nil =>
      intro fuel hfuel rest
      rw [entriesSize] at hfuel
      obtain ⟨fuel, rfl⟩ := Nat.exists_eq_succ_of_ne_zero (Nat.ne_of_gt (Nat.zero_lt_of_lt hfuel))
      have hclosing : skipGap ('\n' :: (List.replicate outer ' ' ++ '}' :: rest)) = '}' :: rest :=
        (skipGap_replicate outer _).trans (skipGap_of_not (by decide) _)
      rw [prettyEntries, prettyEntries, List.intercalate_singleton,
        entries?_line (value?_pretty v indent (by omega) (hbehind '\n' rfl _)), hclosing]
      rfl
  | cons second more =>
      intro fuel hfuel rest
      rw [entriesSize] at hfuel
      obtain ⟨fuel, rfl⟩ := Nat.exists_eq_succ_of_ne_zero (Nat.ne_of_gt (Nat.zero_lt_of_lt hfuel))
      have hmore := @entries?_pretty second more indent outer fuel (by omega) rest
      rw [prettyEntries] at hmore
      rw [prettyEntries, prettyEntries, List.intercalate_cons_cons, List.append_assoc, List.append_assoc,
        List.cons_append, List.singleton_append,
        entries?_line (value?_pretty v indent (by omega) (hbehind ',' rfl _)),
        skipGap_of_not (by decide)]
      simp only [entries?_lineFeed, hmore, Option.map_some]
termination_by entriesSize (entry :: entries)
decreasing_by
  all_goals
    simp only [entriesSize]
    omega

end

/-! ## Texts -/

theorem length_intercalate_cons (sep line : Text) (lines : List Text) :
    line.length + (List.intercalate sep lines).length ≤
      (List.intercalate sep (line :: lines)).length := by
  cases lines with
  | nil => rw [List.intercalate_singleton]; exact Nat.le_refl _
  | cons second more =>
      rw [List.intercalate_cons_cons, List.length_append, List.length_append]
      omega

mutual

/-- A printed value is no shorter than the number of its values and fields. -/
theorem size_le_length (j : Json) (indent : Nat) : j.size ≤ (j.pretty indent).length := by
  cases j with
  | number n =>
      obtain ⟨hsome, -⟩ := isDigits_decimal n
      exact List.length_pos_iff.2 hsome
  | string t => exact Nat.le_add_left _ _
  | object entries =>
      cases entries with
      | nil => exact Nat.le_add_left _ _
      | cons entry entries =>
          have hentries := entriesSize_le_length (entry :: entries) (indent + 2)
          rw [size, pretty.eq_4 _ _ (List.cons_ne_nil _ _)]
          simp only [List.length_append, List.length_cons]
          omega
termination_by j.size
decreasing_by
  rw [size]
  exact Nat.lt_succ_self _

theorem entriesSize_le_length (entries : List (String × Json)) (indent : Nat) :
    entriesSize entries ≤
      (List.intercalate [',', '\n'] (prettyEntries indent entries)).length := by
  match entries with
  | [] => exact Nat.zero_le _
  | (key, v) :: entries =>
      have hv := size_le_length v indent
      have hentries := entriesSize_le_length entries indent
      have hline := length_intercalate_cons [',', '\n'] (List.replicate indent ' ' ++
        quote key.toList ++ ": ".toList ++ v.pretty indent) (prettyEntries indent entries)
      have hquote : 0 < (quote key.toList).length := Nat.succ_pos _
      simp only [List.length_append] at hline
      rw [entriesSize, prettyEntries]
      omega
termination_by entriesSize entries
decreasing_by
  all_goals
    rw [entriesSize]
    omega

end

/-- A printed value, with the line feed behind it, is read as the value. -/
theorem read?_pretty (j : Json) : read? (j.pretty 0 ++ ['\n']) = some j := by
  have hend : Ends ['\n'] := by
    rintro c hc
    cases hc
    rfl
  have hsize := size_le_length j 0
  rw [read?, value?_pretty j 0 (by rw [List.length_append]; omega) hend]
  rfl

/-! ## Fields -/

def field? (j : Json) (name : String) : Option Json :=
  match j with
  | .object entries => entries.lookup name
  | _ => none

def text? : Json → Option Text
  | .string t => some t
  | _ => none

def natural? : Json → Option Nat
  | .number n => some n
  | _ => none

end Json

/-- A position by the names of its fields. -/
def Position.ofJson? (j : Json) : Option Position := do
  let line ← (j.field? "line").bind Json.natural?
  let character ← (j.field? "character").bind Json.natural?
  return ⟨line, character⟩

namespace CallEdit

/-- An edit by the names of its fields. -/
def ofJson? (j : Json) : Option CallEdit := do
  let name ← (j.field? "name").bind Json.text?
  let range ← j.field? "range"
  let start ← (range.field? "start").bind Position.ofJson?
  let stop ← (range.field? "end").bind Position.ofJson?
  let newText ← (j.field? "newText").bind Json.text?
  return ⟨name, start, stop, newText⟩

/-- The edit that somebody gets who reads what a run prints. -/
def ofOutput? (output : String) : Option CallEdit := (Json.read? output.toList).bind ofJson?

theorem ofJson?_json (e : CallEdit) : ofJson? e.json = some e := by
  cases e
  rfl

theorem ofOutput?_pretty (e : CallEdit) :
    ofOutput? (String.ofList (e.json.pretty 0) ++ "\n") = some e := by
  have hlines : (String.ofList (e.json.pretty 0) ++ "\n").toList = e.json.pretty 0 ++ ['\n'] := by
    rw [String.toList_append, String.toList_ofList]
    rfl
  rw [ofOutput?, hlines, Json.read?_pretty, Option.bind_some, ofJson?_json]

/-- Where nothing is printed there is no edit. -/
theorem ofOutput?_empty : ofOutput? "" = none := by
  decide

end CallEdit
end PugSize
