import Mathlib.Data.Nat.Digits.Defs
import PugSize.Script.Quoted
import PugSize.Proofs.Script.Legible

/-!
String literals item by item. Between the quotes stand characters of their own and escapes, and each
item has a text and a value that do not depend on its neighbours. The literal of any items is one token,
and its value is that of its items, one after the other.
-/

namespace PugSize.Script.Quoted

/-- A hexadecimal digit, in lower or in upper case. -/
structure HexDigit where
  value : Fin 16
  upper : Bool
deriving DecidableEq

namespace HexDigit

def char (d : HexDigit) : Char :=
  if d.upper then (Nat.digitChar d.value).toUpper else Nat.digitChar d.value

/-- The number that digits make up, the first of which is the highest. -/
def number (ds : List HexDigit) : Nat := Nat.ofDigits 16 (ds.reverse.map fun d => d.value.val)

theorem number_cons (d : HexDigit) (ds : List HexDigit) :
    number (d :: ds) = 16 ^ ds.length * d.value + number ds := by
  rw [number, number, List.reverse_cons, List.map_append, Nat.ofDigits_append]
  simp [Nat.add_comm]

theorem digit?_char (d : HexDigit) : digit? d.char = some d.value.val := by
  have hall : ∀ value upper, digit? (char ⟨value, upper⟩) = some value.val := by decide
  exact hall d.value d.upper

/-- No digit is a sign, a brace, a quote, a backslash or a line feed. -/
theorem char_not_mem (d : HexDigit) : d.char ∉ "+\x7b\x7d\"'\\\n".toList := by
  have hall : ∀ value upper, char ⟨value, upper⟩ ∉ "+\x7b\x7d\"'\\\n".toList := by decide
  exact hall d.value d.upper

theorem char_ne (d : HexDigit) {c : Char} (hc : c ∈ "+\x7b\x7d\"'\\\n".toList) : d.char ≠ c := by
  rintro rfl
  exact d.char_not_mem hc

end HexDigit

theorem digits?_chars (value : Nat) (ds : List HexDigit) :
    digits? value (ds.map HexDigit.char) = some (16 ^ ds.length * value + HexDigit.number ds) := by
  induction ds generalizing value with
  | nil => simp [digits?, HexDigit.number]
  | cons d ds ih =>
      rw [List.map_cons, digits?, d.digit?_char, Option.bind_some, ih, HexDigit.number_cons,
        List.length_cons, Nat.pow_succ]
      congr 1
      ring

theorem hex?_chars {ds : List HexDigit} (h : ds ≠ []) :
    hex? (ds.map HexDigit.char) = some (HexDigit.number ds) := by
  obtain ⟨d, ds, rfl⟩ := List.exists_cons_of_ne_nil h
  have hdigits := digits?_chars 0 (d :: ds)
  rw [Nat.mul_zero, Nat.zero_add] at hdigits
  have hsign : d.char ≠ '+' := d.char_ne (by decide)
  rw [hex?.eq_def]
  split
  · rename_i heq
    exact absurd (List.cons.inj heq).1 hsign
  · exact hdigits

theorem codePoint_chars {ds : List HexDigit} {c : Char} (h : ds ≠ [])
    (hnumber : HexDigit.number ds = c.toNat) : codePoint (ds.map HexDigit.char) = c := by
  have hvalid : (HexDigit.number ds).isValidChar := by
    rw [hnumber]
    exact c.valid
  rw [codePoint, hex?_chars h]
  change (if (HexDigit.number ds).isValidChar then Char.ofNat (HexDigit.number ds) else _) = c
  rw [if_pos hvalid, hnumber, Char.ofNat_toNat]

/-- The letters that stand for a control character behind a backslash. -/
def controls : List (Char × Char) :=
  [('n', '\n'), ('t', '\t'), ('r', '\r'), ('b', '\x08'), ('f', '\x0c'), ('v', '\x0b'), ('0', '\x00')]

/-- What stands in a literal: a character of its own, or a backslash with what belongs to it. -/
inductive Item (quote : Char)
  | plain (c : Char) (close : c ≠ quote) (slash : c ≠ '\\') (line : c ≠ '\n')
  | control (letter c : Char) (h : (letter, c) ∈ controls)
  | byte (high low : HexDigit)
  | unit (a b c d : HexDigit) (named : Char) (h : HexDigit.number [a, b, c, d] = named.toNat)
  | braced (digits : List HexDigit) (filled : digits ≠ []) (named : Char)
      (h : HexDigit.number digits = named.toNat)
  /-- A line end that is not part of the value. -/
  | continuation
  | escaped (c : Char) (h : c ∉ ['n', 't', 'r', 'b', 'f', 'v', '0', 'x', 'u', '\n'])

namespace Item

variable {quote : Char}

def text : Item quote → Text
  | plain c _ _ _ => [c]
  | control letter _ _ => ['\\', letter]
  | byte high low => ['\\', 'x', high.char, low.char]
  | unit a b c d _ _ => ['\\', 'u', a.char, b.char, c.char, d.char]
  | braced digits _ _ _ => '\\' :: 'u' :: '{' :: digits.map HexDigit.char ++ ['}']
  | continuation => ['\\', '\n']
  | escaped c _ => ['\\', c]

def value : Item quote → Text
  | plain c _ _ _ => [c]
  | control _ c _ => [c]
  | byte high low => [Char.ofNat (HexDigit.number [high, low])]
  | unit _ _ _ _ named _ => [named]
  | braced _ _ named _ => [named]
  | continuation => []
  | escaped c _ => [c]

end Item

theorem decode_own {c : Char} (h : c ≠ '\\') (rest : Text) : decode (c :: rest) = c :: decode rest := by
  rw [decode]
  all_goals
    intros
    contradiction

/-- A backslash before a character that begins no number and is no line end. -/
theorem decode_escaped {c : Char} (h : c ∉ ['u', 'x', '\n']) (rest : Text) :
    decode ('\\' :: c :: rest) = escaped c :: decode rest := by
  simp only [List.mem_cons, List.not_mem_nil, or_false, not_or] at h
  obtain ⟨hu, hx, hline⟩ := h
  rw [decode]
  all_goals
    intros
    contradiction

theorem decode_byte (high low : HexDigit) (rest : Text) :
    decode ('\\' :: 'x' :: high.char :: low.char :: rest) =
      codePoint ([high, low].map HexDigit.char) :: decode rest := by
  rw [decode]
  rfl

theorem decode_unit (a b c d : HexDigit) (rest : Text) :
    decode ('\\' :: 'u' :: a.char :: b.char :: c.char :: d.char :: rest) =
      codePoint ([a, b, c, d].map HexDigit.char) :: decode rest := by
  have hbrace : a.char ≠ '{' := a.char_ne (by decide)
  rw [decode]
  · rfl
  · intro cs hcs
    exact hbrace (List.cons.inj hcs).1

theorem decode_braced (digits : List HexDigit) (rest : Text) :
    decode ('\\' :: 'u' :: '{' :: (digits.map HexDigit.char ++ '}' :: rest)) =
      codePoint (digits.map HexDigit.char) :: decode rest := by
  have hdigits : ∀ c ∈ digits.map HexDigit.char, (c != '}') = true := by
    intro c hc
    obtain ⟨d, -, rfl⟩ := List.mem_map.1 hc
    exact bne_iff_ne.2 (d.char_ne (by decide))
  have htake : (digits.map HexDigit.char ++ '}' :: rest).takeWhile (· != '}') =
      digits.map HexDigit.char := by
    rw [List.takeWhile_append_of_pos hdigits, List.takeWhile_cons_of_neg (by decide), List.append_nil]
  have hdrop : (digits.map HexDigit.char ++ '}' :: rest).dropWhile (· != '}') = '}' :: rest := by
    rw [List.dropWhile_append_of_pos hdigits, List.dropWhile_cons_of_neg (by decide)]
  rw [decode, htake, hdrop]
  rfl

theorem number_byte (high low : HexDigit) :
    (Char.ofNat (HexDigit.number [high, low])).toNat = HexDigit.number [high, low] := by
  have hlow := low.value.isLt
  have hhigh := high.value.isLt
  have hnumber : HexDigit.number [high, low] = 16 * high.value + low.value := by
    rw [HexDigit.number_cons, HexDigit.number_cons]
    simp [HexDigit.number]
  have hvalid : (HexDigit.number [high, low]).isValidChar := .inl (by omega)
  rw [Char.ofNat, dif_pos hvalid]
  rfl

/-- The value of a text that begins with an item. -/
theorem decode_item {quote : Char} (item : Item quote) (rest : Text) :
    decode (item.text ++ rest) = item.value ++ decode rest := by
  cases item with
  | plain c close slash line => exact decode_own slash rest
  | control letter c h =>
      have hescaped : ∀ p ∈ controls, p.1 ∉ ['u', 'x', '\n'] ∧ escaped p.1 = p.2 := by decide
      obtain ⟨hletter, hc⟩ := hescaped _ h
      have hdecode := decode_escaped hletter rest
      rwa [hc] at hdecode
  | byte high low =>
      have hnamed := codePoint_chars (List.cons_ne_nil high [low]) (number_byte high low).symm
      have hdecode := decode_byte high low rest
      rwa [hnamed] at hdecode
  | unit a b c d named h =>
      have hnamed := codePoint_chars (List.cons_ne_nil a [b, c, d]) h
      have hdecode := decode_unit a b c d rest
      rwa [hnamed] at hdecode
  | braced digits filled named h =>
      have hdecode := decode_braced digits rest
      rw [codePoint_chars filled h] at hdecode
      simpa [Item.text, Item.value] using hdecode
  | continuation => exact decode.eq_6 rest
  | escaped c h =>
      have hpart : ∀ d ∈ ['u', 'x', '\n'], d ∈ ['n', 't', 'r', 'b', 'f', 'v', '0', 'x', 'u', '\n'] := by
        simp
      have hself : Quoted.escaped c = c := by
        unfold Quoted.escaped
        split
        case h_8 => rfl
        all_goals exact absurd (by decide) h
      have hdecode := decode_escaped (fun hc => h (hpart c hc)) rest
      rwa [hself] at hdecode

theorem decode_items {quote : Char} (items : List (Item quote)) :
    decode (items.flatMap Item.text) = items.flatMap Item.value := by
  induction items with
  | nil => rw [List.flatMap_nil, List.flatMap_nil, decode]
  | cons item items ih => rw [List.flatMap_cons, List.flatMap_cons, decode_item, ih]

section

variable {quote : Char} (hquote : quote = '"' ∨ quote = '\'')

include hquote

/-- No item ends the literal before its closing quote. -/
theorem quotedBody_item (item : Item quote) {rest : Text} (h : QuotedBody quote rest) :
    QuotedBody quote (item.text ++ rest) := by
  have hdigit (d : HexDigit) {body : Text} (h : QuotedBody quote body) :
      QuotedBody quote (d.char :: body) := by
    refine .plain (d.char_ne (by decide)) ?_ (fun hc => absurd hc (d.char_ne (by decide))) h
    obtain rfl | rfl := hquote <;> exact d.char_ne (by decide)
  have hbrace {c : Char} (hc : c ∈ ['{', '}']) {body : Text} (h : QuotedBody quote body) :
      QuotedBody quote (c :: body) := by
    simp only [List.mem_cons, List.not_mem_nil, or_false] at hc
    obtain rfl | rfl := hquote <;> obtain rfl | rfl := hc <;>
      exact .plain (by decide) (by decide) (by decide) h
  cases item with
  | plain c close slash line => exact .plain slash close (fun hc => absurd hc line) h
  | control letter c _ => exact .escape letter h
  | byte high low => exact .escape 'x' (hdigit high (hdigit low h))
  | unit a b c d named _ => exact .escape 'u' (hdigit a (hdigit b (hdigit c (hdigit d h))))
  | braced digits filled named _ =>
      have hdigits : QuotedBody quote (digits.map HexDigit.char ++ '}' :: rest) := by
        clear filled
        rename_i hnamed
        clear hnamed
        induction digits with
        | nil => exact hbrace (by decide) h
        | cons d ds ih => exact hdigit d ih
      have hwhole : QuotedBody quote ('\\' :: 'u' :: '{' :: (digits.map HexDigit.char ++ '}' :: rest)) :=
        .escape 'u' (hbrace (by decide) hdigits)
      simpa [Item.text] using hwhole
  | continuation => exact .escape '\n' h
  | escaped c _ => exact .escape c h

theorem quotedBody_items (items : List (Item quote)) : QuotedBody quote (items.flatMap Item.text) := by
  induction items with
  | nil => exact .nil
  | cons item items ih => exact quotedBody_item hquote item ih

end

/-- The literal of items in quotes. -/
def literal (quote : Char) (items : List (Item quote)) : Text :=
  quote :: items.flatMap Item.text ++ [quote]

theorem value_literal {quote : Char} (items : List (Item quote)) :
    value (literal quote items) = items.flatMap Item.value := by
  rw [value, literal, List.cons_append, List.drop_succ_cons, List.drop_zero, List.dropLast_concat,
    decode_items]

theorem tokenize_literal {quote : Char} (hquote : quote = '"' ∨ quote = '\'') (items : List (Item quote)) :
    tokenize (literal quote items) = .ok [⟨.str, literal quote items, 0⟩] := by
  have hkind : quoteKind? quote = some .str := if_pos hquote
  have hfirst := firstLexeme?_quoted hkind (quotedBody_items hquote items) []
  refine tokenize_eq_ok.2 ⟨[⟨.token .str, literal quote items⟩], ⟨?_, trivial⟩, ?_, rfl⟩
  · rw [Lexeme.stands_other (by simp)]
    simpa [literal] using hfirst
  · simp

/-- An item that stands for a character. -/
def Item.ofChar {quote : Char} (hquote : quote = '"' ∨ quote = '\'') (c : Char) : Item quote :=
  if hline : c = '\n' then .control 'n' '\n' (by decide)
  else if hself : c ≠ quote ∧ c ≠ '\\' then .plain c hself.1 hself.2 hline
  else .escaped c (by
    have hc : c = quote ∨ c = '\\' := by
      rwa [not_and_or, not_not, not_not] at hself
    obtain rfl | rfl := hc
    · obtain rfl | rfl := hquote <;> decide
    · decide)

theorem Item.value_ofChar {quote : Char} (hquote : quote = '"' ∨ quote = '\'') (c : Char) :
    (Item.ofChar hquote c).value = [c] := by
  unfold Item.ofChar
  split
  · rename_i hline
    rw [hline]
    rfl
  · split <;> rfl

/-- Every literal that is written item by item is one token, and its value is that of its items; so every
text is the value of a literal, in either kind of quotes. -/
theorem literal_decodes {quote : Char} (hquote : quote = '"' ∨ quote = '\'') :
    (∀ items : List (Item quote),
      tokenize (literal quote items) = .ok [⟨.str, literal quote items, 0⟩] ∧
        value (literal quote items) = items.flatMap Item.value) ∧
      ∀ t : Text, ∃ items : List (Item quote), value (literal quote items) = t := by
  refine ⟨fun items => ⟨tokenize_literal hquote items, value_literal items⟩, fun t => ?_⟩
  refine ⟨t.map (Item.ofChar hquote), ?_⟩
  rw [value_literal, List.flatMap_map]
  simp only [Item.value_ofChar, List.flatMap_singleton']

/-- Escapes of every kind, each before a character that it could be mistaken to take with it. -/
theorem literal_decodes_neighbours :
    let items : List (Item '"') :=
      [.byte ⟨4, false⟩ ⟨10, false⟩,
        .unit ⟨0, false⟩ ⟨0, false⟩ ⟨14, true⟩ ⟨9, false⟩ 'é' (by decide), .plain '4' (by decide)
          (by decide) (by decide),
        .braced [⟨0, false⟩, ⟨1, false⟩, ⟨15, false⟩, ⟨6, false⟩, ⟨0, false⟩, ⟨0, false⟩] (by decide) '😀'
          (by decide),
        .control '0' '\x00' (by decide), .continuation, .escaped '\'' (by decide),
        .escaped '\\' (by decide), .plain '\'' (by decide) (by decide) (by decide)]
    ('"' = '"' ∨ '"' = '\'') ∧
      literal '"' items = "\"\\x4a\\u00E94\\u\x7b01f600\x7d\\0\\\n\\'\\\\'\"".toList ∧
      tokenize (literal '"' items) = .ok [⟨.str, literal '"' items, 0⟩] ∧
      value (literal '"' items) = "Jé4😀\x00'\\'".toList := by
  intro items
  obtain ⟨htoken, hvalue⟩ := (literal_decodes (.inl rfl)).1 items
  refine ⟨.inl rfl, by decide, htoken, ?_⟩
  rw [hvalue]
  decide

end PugSize.Script.Quoted
