import Mathlib
import PugSize.Proofs.Edit.Marks
import PugSize.Proofs.Script.Comments

/-!
The classes of bytes. Reading a text byte by byte gives each byte the class of its character, since no
byte of a longer character is taken for a quote, a bracket or a mark of a comment. Where a text has
tokens, the classes of its bytes are told by the tokens and by the comments between them.
-/

namespace PugSize

/-- The bytes of a text, each taken for the character with its number. -/
def Text.bytes (t : Text) : Text :=
  t.flatMap fun c => (String.utf8EncodeChar c).map fun b => Char.ofNat b.toNat

namespace Text

theorem toNat_ofNat_byte (b : UInt8) : (Char.ofNat b.toNat).toNat = b.toNat := by
  have hlt : b.toNat < 256 := b.toNat_lt
  have hvalid : b.toNat.isValidChar := .inl (by omega)
  rw [Char.ofNat, dif_pos hvalid]
  exact UInt32.toNat_ofNatLT ..

theorem bytes_cons_ascii {c : Char} (cs : Text) (hc : c.toNat < 128) :
    bytes (c :: cs) = c :: bytes cs := by
  have hsize : c.utf8Size = 1 := by
    rw [Char.utf8Size_eq_one_iff, UInt32.le_iff_toNat_le]
    exact Nat.le_of_lt_succ hc
  have hbyte : c.val.toUInt8.toNat = c.toNat := by
    rw [UInt32.toNat_toUInt8]
    exact Nat.mod_eq_of_lt (Nat.lt_trans hc (by decide))
  rw [bytes, List.flatMap_cons, String.utf8EncodeChar_eq_singleton hsize, List.map_singleton, hbyte,
    Char.ofNat_toNat]
  rfl

/-- The bytes of a character beyond the ASCII range are all beyond it. -/
theorem bytes_cons_high {c : Char} (cs : Text) (hc : 128 ≤ c.toNat) :
    ∃ ds : Text, bytes (c :: cs) = ds ++ bytes cs ∧ ds.length = c.utf8Size ∧ ∀ d ∈ ds, 128 ≤ d.toNat := by
  refine ⟨(String.utf8EncodeChar c).map fun b => Char.ofNat b.toNat, ?_, ?_, ?_⟩
  · rw [bytes, List.flatMap_cons]
    rfl
  · rw [List.length_map, String.length_utf8EncodeChar]
  · intro d hd
    obtain ⟨b, hb, rfl⟩ := List.mem_map.1 hd
    rw [toNat_ofNat_byte]
    have hvalue : c.val.toNat = c.toNat := rfl
    simp only [String.utf8EncodeChar, hvalue] at hb
    split at hb
    · omega
    split at hb
    · simp only [List.mem_cons, List.not_mem_nil, or_false] at hb
      obtain rfl | rfl := hb <;> rw [UInt8.toNat_ofNat'] <;> omega
    split at hb
    · simp only [List.mem_cons, List.not_mem_nil, or_false] at hb
      obtain rfl | rfl | rfl := hb <;> rw [UInt8.toNat_ofNat'] <;> omega
    · simp only [List.mem_cons, List.not_mem_nil, or_false] at hb
      obtain rfl | rfl | rfl | rfl := hb <;> rw [UInt8.toNat_ofNat'] <;> omega

theorem head?_bytes {t : Text} {d : Char} (hd : d.toNat < 128) :
    t.bytes.head? = some d ↔ t.head? = some d := by
  cases t with
  | nil => rfl
  | cons c cs =>
      by_cases hc : c.toNat < 128
      · rw [bytes_cons_ascii cs hc]
        rfl
      · obtain ⟨ds, hbytes, hlength, hhigh⟩ := bytes_cons_high cs (Nat.le_of_not_lt hc)
        have hpos := c.utf8Size_pos
        obtain ⟨e, es, rfl⟩ := List.exists_cons_of_length_pos (by omega : 0 < ds.length)
        have he := hhigh e List.mem_cons_self
        rw [hbytes, List.cons_append, List.head?_cons, List.head?_cons, Option.some.injEq,
          Option.some.injEq]
        constructor
        · rintro rfl
          omega
        · rintro rfl
          omega

end Text

namespace CharClass

open Script

/-- The classes of characters, each once for every byte of its character. -/
def perByte (t : Text) (ks : List CharClass) : List CharClass :=
  (List.zipWith (fun (c : Char) k => List.replicate c.utf8Size k) t ks).flatten

theorem ofBytes_eq (t : Text) : ofBytes t = perByte t (ofText t) := rfl

@[simp] theorem perByte_nil (ks : List CharClass) : perByte [] ks = [] := rfl

@[simp] theorem perByte_cons (c : Char) (cs : Text) (k : CharClass) (ks : List CharClass) :
    perByte (c :: cs) (k :: ks) = List.replicate c.utf8Size k ++ perByte cs ks := rfl

theorem perByte_append {as bs : Text} {ks ls : List CharClass} (h : as.length = ks.length) :
    perByte (as ++ bs) (ks ++ ls) = perByte as ks ++ perByte bs ls := by
  rw [perByte, List.zipWith_append h, List.flatten_append]
  rfl

theorem length_perByte {t : Text} {ks : List CharClass} (h : t.length = ks.length) :
    (perByte t ks).length = t.width := by
  induction t generalizing ks with
  | nil => rfl
  | cons c cs ih =>
      obtain ⟨k, ks, rfl⟩ := List.exists_cons_of_length_eq_add_one h.symm
      rw [perByte_cons, List.length_append, List.length_replicate, ih (Nat.succ.inj h), Text.width_cons]

/-- Characters of one class. -/
theorem perByte_map (t : Text) (k : CharClass) :
    perByte t (t.map fun _ => k) = List.replicate t.width k := by
  induction t with
  | nil => rfl
  | cons c cs ih =>
      rw [List.map_cons, perByte_cons, ih, List.replicate_append_replicate, Text.width_cons]

/-- The class of a character beyond the ASCII range. -/
def ofHigh (depth : Nat) : Place → CharClass
  | .code => code depth
  | .quoted _ | .escaped _ => literal
  | .lineComment | .blockOpening | .blockComment | .blockClosing => comment

/-- What stands behind a character beyond the ASCII range. -/
def Place.behindHigh : Place → Place
  | .escaped quote => .quoted quote
  | .blockOpening => .blockComment
  | .blockClosing => .code
  | place => place

/-- Whether a text can be reached in a place: a quote is one, and a block comment ends with its slash. -/
def Place.Reaches (t : Text) : Place → Prop
  | .quoted quote | .escaped quote => isQuote quote = true
  | .blockClosing => t.head? = some '/'
  | _ => True

theorem toNat_of_isQuote {c : Char} (h : isQuote c = true) : c.toNat < 128 := by
  simp only [isQuote, Bool.or_eq_true, beq_iff_eq] at h
  obtain (rfl | rfl) | rfl := h <;> decide

theorem ne_of_high {c d : Char} (hc : 128 ≤ c.toNat) (hd : d.toNat < 128) : c ≠ d := by
  rintro rfl
  omega

theorem isQuote_high {c : Char} (hc : 128 ≤ c.toNat) : isQuote c = false := by
  have hne {d : Char} (hd : d.toNat < 128) := ne_of_high hc hd
  simp only [isQuote, Bool.or_eq_false_iff, beq_eq_false_iff_ne]
  exact ⟨⟨hne (by decide), hne (by decide)⟩, hne (by decide)⟩

theorem isOpening_high {c : Char} (hc : 128 ≤ c.toNat) : isOpening c = false := by
  have hne {d : Char} (hd : d.toNat < 128) := ne_of_high hc hd
  simp only [isOpening, Bool.or_eq_false_iff, beq_eq_false_iff_ne]
  exact ⟨⟨hne (by decide), hne (by decide)⟩, hne (by decide)⟩

theorem isClosing_high {c : Char} (hc : 128 ≤ c.toNat) : isClosing c = false := by
  have hne {d : Char} (hd : d.toNat < 128) := ne_of_high hc hd
  simp only [isClosing, Bool.or_eq_false_iff, beq_eq_false_iff_ne]
  exact ⟨⟨hne (by decide), hne (by decide)⟩, hne (by decide)⟩

theorem ofTextFrom_high {place : Place} {c : Char} (hc : 128 ≤ c.toNat) (depth : Nat) {cs : Text}
    (hplace : place.Reaches (c :: cs)) (rest : Text) :
    ofTextFrom place depth (c :: rest) =
      ofHigh depth place :: ofTextFrom place.behindHigh depth rest := by
  have hne {d : Char} (hd : d.toNat < 128) := ne_of_high hc hd
  cases place with
  | code =>
      have hslash : c ≠ '/' := hne (by decide)
      rw [ofTextFrom, if_neg (Bool.eq_false_iff.1 (isQuote_high hc)), if_neg fun h => hslash h.1,
        if_neg fun h => hslash h.1, if_neg (Bool.eq_false_iff.1 (isOpening_high hc)),
        if_neg (Bool.eq_false_iff.1 (isClosing_high hc))]
      rfl
  | quoted quote =>
      rw [ofTextFrom, if_neg (hne (by decide)), if_neg (hne (toNat_of_isQuote hplace))]
      rfl
  | escaped quote => rfl
  | lineComment =>
      rw [ofTextFrom, if_neg (hne (by decide))]
      rfl
  | blockOpening => rfl
  | blockComment =>
      rw [ofTextFrom, if_neg fun h => hne (by decide) h.1]
      rfl
  | blockClosing => rfl

/-- Characters beyond the ASCII range, one or more, all have the class of the first. -/
theorem ofTextFrom_highs {place : Place} {c : Char} {ds : Text} (hhigh : ∀ d ∈ c :: ds, 128 ≤ d.toNat)
    (depth : Nat) {cs : Text} (hplace : place.Reaches (c :: cs)) (rest : Text) :
    ofTextFrom place depth (c :: ds ++ rest) =
      List.replicate (ds.length + 1) (ofHigh depth place) ++ ofTextFrom place.behindHigh depth rest := by
  obtain ⟨hc, hds⟩ := List.forall_mem_cons.1 hhigh
  induction ds generalizing place c cs with
  | nil => exact ofTextFrom_high hc depth hplace rest
  | cons d ds ih =>
      have hclosing : place ≠ .blockClosing := by
        rintro rfl
        exact ne_of_high hc (by decide) (Option.some.inj hplace)
      have hsame : ofHigh depth place.behindHigh = ofHigh depth place ∧
          place.behindHigh.behindHigh = place.behindHigh ∧ place.behindHigh.Reaches (d :: cs) := by
        cases place with
        | code => exact ⟨rfl, rfl, trivial⟩
        | quoted quote => exact ⟨rfl, rfl, hplace⟩
        | escaped quote => exact ⟨rfl, rfl, hplace⟩
        | lineComment => exact ⟨rfl, rfl, trivial⟩
        | blockOpening => exact ⟨rfl, rfl, trivial⟩
        | blockComment => exact ⟨rfl, rfl, trivial⟩
        | blockClosing => exact absurd rfl hclosing
      obtain ⟨hclass, hbehind, hreaches⟩ := hsame
      obtain ⟨hd, hds'⟩ := List.forall_mem_cons.1 hds
      have hlater := ih hds hreaches hd hds'
      rw [hclass, hbehind] at hlater
      rw [List.cons_append, ofTextFrom_high hc depth hplace, hlater]
      rfl

/-- What a character does depends on the text behind it by a slash or an asterisk in front only. -/
theorem exists_step {place : Place} {c : Char} {cs : Text} (depth : Nat)
    (hplace : place.Reaches (c :: cs)) :
    ∃ k next depth', Place.Reaches cs next ∧ ∀ rest : Text,
      (rest.head? = some '/' ↔ cs.head? = some '/') → (rest.head? = some '*' ↔ cs.head? = some '*') →
      ofTextFrom place depth (c :: rest) = k :: ofTextFrom next depth' rest := by
  cases place with
  | quoted quote =>
      by_cases hescape : c = '\\'
      · exact ⟨_, .escaped quote, _, hplace, fun rest _ _ => if_pos hescape⟩
      by_cases hquote : c = quote
      · exact ⟨_, .code, _, trivial, fun rest _ _ => (if_neg hescape).trans (if_pos hquote)⟩
      · exact ⟨_, .quoted quote, _, hplace, fun rest _ _ => (if_neg hescape).trans (if_neg hquote)⟩
  | escaped quote => exact ⟨_, .quoted quote, _, hplace, fun rest _ _ => rfl⟩
  | lineComment =>
      by_cases hline : c = '\n'
      · exact ⟨_, .code, _, trivial, fun rest _ _ => if_pos hline⟩
      · exact ⟨_, .lineComment, _, trivial, fun rest _ _ => if_neg hline⟩
  | blockOpening => exact ⟨_, .blockComment, _, trivial, fun rest _ _ => rfl⟩
  | blockComment =>
      by_cases hclose : c = '*' ∧ cs.head? = some '/'
      · exact ⟨_, .blockClosing, _, hclose.2, fun rest hslash _ => if_pos ⟨hclose.1, hslash.2 hclose.2⟩⟩
      · exact ⟨_, .blockComment, _, trivial, fun rest hslash _ =>
          if_neg fun h => hclose ⟨h.1, hslash.1 h.2⟩⟩
  | blockClosing => exact ⟨_, .code, _, trivial, fun rest _ _ => rfl⟩
  | code =>
      by_cases hquote : isQuote c = true
      · exact ⟨_, .quoted c, _, hquote, fun rest _ _ => if_pos hquote⟩
      by_cases hline : c = '/' ∧ cs.head? = some '/'
      · refine ⟨comment, .lineComment, depth, trivial, fun rest hslash _ => (if_neg hquote).trans ?_⟩
        exact if_pos ⟨hline.1, hslash.2 hline.2⟩
      by_cases hblock : c = '/' ∧ cs.head? = some '*'
      · refine ⟨comment, .blockOpening, depth, trivial, fun rest hslash hstar => (if_neg hquote).trans ?_⟩
        refine (if_neg fun h => hline ⟨h.1, hslash.1 h.2⟩).trans ?_
        exact if_pos ⟨hblock.1, hstar.2 hblock.2⟩
      have hplain (rest : Text) (hslash : rest.head? = some '/' ↔ cs.head? = some '/')
          (hstar : rest.head? = some '*' ↔ cs.head? = some '*') : ofTextFrom .code depth (c :: rest) =
          if isOpening c then code depth :: ofTextFrom .code (depth + 1) rest
          else if isClosing c then code depth :: ofTextFrom .code (depth - 1) rest
          else code depth :: ofTextFrom .code depth rest :=
        (if_neg hquote).trans ((if_neg fun h => hline ⟨h.1, hslash.1 h.2⟩).trans
          (if_neg fun h => hblock ⟨h.1, hstar.1 h.2⟩))
      by_cases hopening : isOpening c = true
      · exact ⟨_, .code, _, trivial, fun rest hslash hstar =>
          (hplain rest hslash hstar).trans (if_pos hopening)⟩
      by_cases hclosing : isClosing c = true
      · exact ⟨_, .code, _, trivial, fun rest hslash hstar =>
          (hplain rest hslash hstar).trans ((if_neg hopening).trans (if_pos hclosing))⟩
      · exact ⟨_, .code, _, trivial, fun rest hslash hstar =>
          (hplain rest hslash hstar).trans ((if_neg hopening).trans (if_neg hclosing))⟩

theorem ofTextFrom_bytes (t : Text) (place : Place) (depth : Nat) (hplace : place.Reaches t) :
    ofTextFrom place depth t.bytes = perByte t (ofTextFrom place depth t) := by
  induction t generalizing place depth with
  | nil => rfl
  | cons c cs ih =>
      by_cases hc : c.toNat < 128
      · obtain ⟨k, next, depth', hnext, hstep⟩ := exists_step depth hplace
        have hsize : c.utf8Size = 1 := by
          rw [Char.utf8Size_eq_one_iff, UInt32.le_iff_toNat_le]
          exact Nat.le_of_lt_succ hc
        rw [Text.bytes_cons_ascii cs hc, hstep cs .rfl .rfl, perByte_cons, hsize, ← ih next depth' hnext]
        exact hstep _ (Text.head?_bytes (by decide)) (Text.head?_bytes (by decide))
      · have hhigh := Nat.le_of_not_lt hc
        obtain ⟨ds, hbytes, hlength, hds⟩ := Text.bytes_cons_high cs hhigh
        have hpos := c.utf8Size_pos
        obtain ⟨e, es, rfl⟩ := List.exists_cons_of_length_pos (by omega : 0 < ds.length)
        have hclosing : place ≠ .blockClosing := by
          rintro rfl
          exact ne_of_high hhigh (by decide) (Option.some.inj hplace)
        -- The bytes of the character stand where it does, unless that is the end of a block comment.
        have hsame : place.Reaches (e :: cs) ∧ place.behindHigh.Reaches cs := by
          cases place with
          | quoted quote => exact ⟨hplace, hplace⟩
          | escaped quote => exact ⟨hplace, hplace⟩
          | blockClosing => exact absurd rfl hclosing
          | _ => exact ⟨trivial, trivial⟩
        rw [hbytes, ofTextFrom_highs hds depth hsame.1, ih _ depth hsame.2,
          ofTextFrom_high hhigh depth hplace, perByte_cons, ← hlength, List.length_cons]

/-- Reading a text byte by byte gives each byte the class of its character. -/
theorem ofText_bytes (t : Text) : ofText t.bytes = ofBytes t := ofTextFrom_bytes t .code 0 trivial

end CharClass
end PugSize
