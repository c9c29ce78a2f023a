import PugSize.Proofs.Edit.KeyedCores
import PugSize.Proofs.Edit.Margins
import PugSize.Proofs.Edit.Uncommented

/-!
Objects without comments and with white space of the plainest kind. There nothing is hidden from the
search for a key, no value is cut inside brackets, and a comma is seen wherever one stands; so the
value of the last core that is written with a key is exchanged, or a core is added behind the others.
-/

namespace PugSize

open Script CharClass

namespace ObjectText

/-- Neither a comment nor a literal with white space that is not plain. -/
structure PlainLexeme (l : Lexeme) : Prop where
  comment : l.kind ≠ .trivia .lineComment ∧ l.kind ≠ .trivia .blockComment
  chars : ∀ c ∈ l.text, isSkipped c = true → c = ' ' ∨ c = '\t' ∨ c = '\n'

def Plain (ns : List Node) : Prop := ∀ l ∈ lexemesOf ns, PlainLexeme l

theorem plain_append {as bs : List Node} : Plain (as ++ bs) ↔ Plain as ∧ Plain bs := by
  rw [Plain, lexemesOf_append, List.forall_mem_append]
  rfl

theorem Plain.mem {ns : List Node} (h : Plain ns) {n : Node} (hn : n ∈ ns) : Plain [n] := by
  obtain ⟨as, bs, rfl⟩ := List.append_of_mem hn
  rw [List.append_cons, plain_append, plain_append] at h
  exact h.1.2

theorem mem_lexemesOf {ns : List Node} {l : Lexeme} :
    l ∈ lexemesOf ns ↔ ∃ n ∈ ns, l ∈ n.lexemes := by
  induction ns with
  | nil => simp
  | cons n ns ih => simp [ih]

theorem mem_textOf {ns : List Node} {c : Char} :
    c ∈ textOf ns ↔ ∃ l ∈ lexemesOf ns, c ∈ l.text := by
  rw [textOf, written, List.mem_flatMap]

theorem Plain.char {ns : List Node} (h : Plain ns) {c : Char} (hc : c ∈ textOf ns)
    (hskipped : isSkipped c = true) : c = ' ' ∨ c = '\t' ∨ c = '\n' := by
  obtain ⟨l, hl, hc⟩ := mem_textOf.1 hc
  exact (h l hl).chars c hc hskipped

theorem isPlainBlank_of_plain {n : Node} {after : Text} (hlegible : Legible n.lexemes after)
    (h : Plain [n]) (htrivia : n.isTrivia = true) : isPlainBlank n = true := by
  cases n with
  | leaf l plain =>
      obtain ⟨hcomment, hchars⟩ := h l (by simp [Node.lexemes])
      have hkind := kind_of_isTrivia hcomment htrivia
      obtain ⟨c, htext, hc⟩ := (Lexeme.stands_blank hkind).1 hlegible.1
      have := hchars c (by rw [htext]; exact List.mem_cons_self) hc
      rw [isPlainBlank, hkind, htext]
      obtain rfl | rfl | rfl := this <;> rfl
  | comma => cases htrivia
  | group shape inside => cases htrivia

theorem gap_of_plain {ns : List Node} {after : Text} (hlegible : Legible (lexemesOf ns) after)
    (h : Plain ns) (hblank : Blank ns) : Gap ns := by
  intro n hn
  have hplain := h.mem hn
  obtain ⟨as, bs, rfl⟩ := List.append_of_mem hn
  rw [lexemesOf_append, lexemesOf_cons] at hlegible
  exact isGap_of_isPlainBlank (isPlainBlank_of_plain
    (legible_append.1 (legible_append.1 hlegible).2).1 hplain (hblank n hn))

theorem Plain.uncommented {ns : List Node} (h : Plain ns) : Uncommented ns := fun l hl => (h l hl).comment

/-- An object laid out in rows without comments. -/
structure PlainLayout (t : Text) (rows : List Row) (rest : List (List Node)) : Prop extends
    ObjectLayout t rows rest where
  plain : Plain (rowNodes rows rest)

theorem plainLexeme_of_chars {kind : TokenKind} {t : Text} (h : ∀ c ∈ t, isSkipped c = false) :
    PlainLexeme ⟨.token kind, t⟩ :=
  ⟨⟨nofun, nofun⟩, fun c hc hskipped => by rw [h c hc] at hskipped; cases hskipped⟩

theorem not_skipped_of_continue {c : Char} (h : isIdentContinue c = true) : isSkipped c = false := by
  apply Bool.eq_false_iff.2
  intro hskipped
  rw [isIdentContinue_of_isSeparator (isSeparator_of_isSkipped hskipped)] at h
  cases h

theorem plain_number {t : Text} (h : IsDigits t) : Plain [.number t] := by
  intro l hl
  obtain rfl : l = ⟨.token .number, t⟩ := List.mem_singleton.1 hl
  exact plainLexeme_of_chars fun c hc => not_skipped_of_continue (isIdentContinue_of_isDigit (h.2 c hc))

theorem plain_space : Plain [.space] := by
  intro l hl
  obtain rfl : l = ⟨.trivia .blank, [' ']⟩ := List.mem_singleton.1 hl
  refine ⟨⟨nofun, nofun⟩, fun c hc _ => .inl (List.mem_singleton.1 hc)⟩

theorem plain_propertyNodes {key value : Text} (hkey : IsKey key) (hvalue : IsDigits value) :
    Plain (propertyNodes key value) := by
  have hname : Plain [nameNode key] := by
    intro l hl
    obtain rfl : l = ⟨.token (bareKind key), key⟩ := List.mem_singleton.1 hl
    exact plainLexeme_of_chars fun c hc => not_skipped_of_continue (hkey.continues c hc)
  have hcolon : Plain [colonNode] := by
    intro l hl
    obtain rfl : l = ⟨.token .colon, [':']⟩ := List.mem_singleton.1 hl
    exact plainLexeme_of_chars fun c hc => by rw [List.mem_singleton.1 hc]; rfl
  exact plain_append.2 ⟨hname, plain_append.2 ⟨hcolon, plain_append.2 ⟨plain_space, plain_number hvalue⟩⟩⟩

section

variable {ns front back lead trail : List Node} (hplace : Place ns front back lead trail)
  (hplain : Plain ns) (h : Legible (lexemesOf ns) ['}'])

include hplace hplain

theorem Place.plain_around : Plain (lead ++ trail) := by
  intro l hl
  obtain ⟨n, hn, hln⟩ := mem_lexemesOf.1 hl
  obtain hn | hgap := hplace.source n hn
  · exact hplain.mem hn l (by simp [hln])
  · refine ⟨?_, ?_⟩
    · cases n with
      | leaf m plain =>
          obtain rfl : l = m := List.mem_singleton.1 hln
          simp only [isGap, Bool.and_eq_true, beq_iff_eq] at hgap
          rw [hgap.1]
          exact ⟨by decide, by decide⟩
      | comma => cases hgap
      | group shape inside => cases hgap
    · intro c hc hskipped
      obtain hc | hc := hplace.chars c (mem_textOf.2 ⟨l, hl, hc⟩)
      · exact hplain.char hc hskipped
      · exact hc.imp_right .inl

/-- The nodes with a property in its place are plain. -/
theorem Place.plain {key value : Text} (hkey : IsKey key) (hvalue : IsDigits value) :
    Plain (front ++ commaBehind front ++ (lead ++ propertyNodes key value ++ trail)) := by
  have haround := plain_append.1 (hplace.plain_around hplain)
  have hfront := hplain
  rw [hplace.nodes, plain_append] at hfront
  have hcomma : Plain (commaBehind front) := by
    have hone : Plain [.comma] := by
      intro l hl
      obtain rfl : l = commaLexeme := List.mem_singleton.1 hl
      exact plainLexeme_of_chars fun c hc => by rw [List.mem_singleton.1 hc]; rfl
    unfold commaBehind
    split
    · exact nofun
    · exact nofun
    · exact hone
  exact plain_append.2 ⟨plain_append.2 ⟨hfront.1, hcomma⟩,
    plain_append.2 ⟨plain_append.2 ⟨haround.1, plain_propertyNodes hkey hvalue⟩, haround.2⟩⟩

include h

/-- What stands before a place among plain nodes is seen there. -/
theorem Place.last_plain (n : Node) (hn : front.getLast? = some n) : n.isTrivia = false := by
  apply Bool.eq_false_iff.2
  intro htrivia
  have hmem : n ∈ ns := by
    rw [hplace.nodes]
    exact List.mem_append_left _ (List.mem_of_getLast? hn)
  have hone := hplain.mem hmem
  obtain ⟨as, bs, rfl⟩ := List.append_of_mem hmem
  rw [lexemesOf_append, lexemesOf_cons] at h
  have hblank := isPlainBlank_of_plain (legible_append.1 (legible_append.1 h).2).1 hone htrivia
  rw [(hplace.last n hn).2] at hblank
  cases hblank

end

/-- Whether a key is written in no core, or the last value written with it stands on one line. -/
def Ready (key : Text) (cores : List (List Node)) : Prop :=
  Unkeyed key cores ∨ ∃ i part value, LastKeyed key cores i part value ∧ OneLine value

theorem exists_split {α : Type} {l : List α} {i : Nat} {a : α} (h : l[i]? = some a) :
    ∃ as bs, l = as ++ a :: bs ∧ as.length = i := by
  obtain ⟨hi, rfl⟩ := List.getElem?_eq_some_iff.1 h
  refine ⟨l.take i, l.drop (i + 1), ?_, by rw [List.length_take]; omega⟩
  rw [← List.drop_eq_getElem_cons hi, List.take_append_drop]

theorem getElem?_middle {α : Type} (as : List α) (a : α) (bs : List α) : (as ++ a :: bs)[as.length]? = some a := by
  rw [List.getElem?_append_right (Nat.le_refl _), Nat.sub_self, List.getElem?_cons_zero]

theorem getElem?_other {α : Type} {as : List α} (a a' : α) {bs : List α} {j : Nat} (hj : as.length ≠ j) :
    (as ++ a' :: bs)[j]? = (as ++ a :: bs)[j]? := by
  rw [List.getElem?_append, List.getElem?_append]
  split
  · rfl
  · obtain ⟨n, hn⟩ : ∃ n, j - as.length = n + 1 := ⟨j - as.length - 1, by omega⟩
    rw [hn, List.getElem?_cons_succ, List.getElem?_cons_succ]

theorem getElem?_behind {α : Type} {as : List α} {a b : α} {bs : List α} {j : Nat} (hj : as.length < j)
    (h : (as ++ a :: bs)[j]? = some b) : b ∈ bs := by
  rw [List.getElem?_append_right (Nat.le_of_lt hj)] at h
  obtain ⟨n, hn⟩ : ∃ n, j - as.length = n + 1 := ⟨j - as.length - 1, by omega⟩
  rw [hn, List.getElem?_cons_succ] at h
  exact List.mem_of_getElem? h

theorem getElem?_later {α : Type} {as : List α} (a : α) {bs : List α} {j : Nat} {b : α} (h : bs[j]? = some b) :
    (as ++ a :: bs)[as.length + 1 + j]? = some b := by
  rw [List.getElem?_append_right (by omega), Nat.add_assoc, Nat.add_sub_cancel_left, Nat.add_comm 1,
    List.getElem?_cons_succ, h]

/-- The row of the last core that is written with a key. -/
theorem LastKeyed.exists_row {key : Text} {rows : List Row} {i : Nat} {part value : List Node}
    (h : LastKeyed key (rows.map Row.core) i part value) :
    ∃ as r bs, rows = as ++ r :: bs ∧ as.length = i ∧ Keyed key r.core part value ∧
      ∀ b ∈ bs, ∀ part value, ¬ Writes key b part value := by
  obtain ⟨c, hc, hkeyed⟩ := h.keyed
  rw [List.getElem?_map] at hc
  obtain ⟨r, hr, rfl⟩ := Option.map_eq_some_iff.1 hc
  obtain ⟨as, bs, rfl, rfl⟩ := exists_split hr
  refine ⟨as, r, bs, rfl, rfl, hkeyed, fun b hb part value hwrites => ?_⟩
  obtain ⟨j, hj⟩ := List.getElem?_of_mem hb
  refine h.later (as.length + 1 + j) b.core (by omega) ?_ part value hwrites.toKeyed
  rw [List.getElem?_map, getElem?_later r hj]
  rfl

theorem spaced_of_plain {ns : List Node} {after : Text} (hlegible : Legible (lexemesOf ns) after)
    (h : Plain ns) (hblank : Blank ns) : Spaced ns :=
  fun n hn => .inl (gap_of_plain hlegible h hblank n hn)

/-- A value on one line, and the white space behind it up to the end of that line. -/
theorem exists_plain_cut {value trail : List Node} {after after' : Text}
    (hvalueLegible : Legible (lexemesOf value) after) (hvalue : Plain value) (huncut : Uncut value)
    (hline : OneLine value) (htrailLegible : Legible (lexemesOf trail) after') (htrail : Plain trail)
    (hblank : Blank trail) :
    ∃ gap behind, trail = gap ++ behind ∧ Gap gap ∧ Stops behind ∧
      ∀ x ∈ marksOf 1 (value ++ gap), endsValue x = false := by
  obtain ⟨gap, behind, hcut, hgapMarks, hbehindStops⟩ := exists_cut htrailLegible hblank.uncut
  have htrailGap := gap_of_plain htrailLegible htrail hblank
  refine ⟨gap, behind, hcut, fun n hn => htrailGap n ?_, hbehindStops.resolve_right ?_, fun x hx => ?_⟩
  · rw [hcut]
    exact List.mem_append_left _ hn
  · rintro ⟨shape, inside, later, rfl, -⟩
    have := hblank (.group shape inside) (by rw [hcut]; simp)
    cases this
  · rw [marksOf_append] at hx
    obtain hx | hx := List.mem_append.1 hx
    · exact not_ends_of_oneLine hvalueLegible hvalue.uncommented huncut hline x hx
    · exact hgapMarks x hx

namespace PlainLayout

variable {t : Text} {rest : List (List Node)} {e : PropertyEdit}

/-- Where no core is written with the key, a property is added. -/
theorem write_new {rows : List Row} (h : PlainLayout t rows rest) (hkey : IsKey e.key)
    (hvalue : IsDigits e.value) (hnone : Unkeyed e.key (rows.map Row.core)) (overwrite : Bool) :
    valueSpan? t e.key = none ∧
    ∃ rows' rest', PlainLayout (write overwrite t e) rows' rest' ∧
      marginsOf rows' rest' = (marginsOf rows rest).add (lineIndent? t) ∧
      rows'.map Row.core = rows.map Row.core ++ [propertyNodes e.key e.value] := by
  have hwrites : ∀ r ∈ rows, ∀ part value, ¬ Writes e.key r part value :=
    fun r hr part value hw => hnone r.core (List.mem_map_of_mem hr) part value hw.toKeyed
  have hspan : valueSpan? t e.key = none := h.toObjectLayout.valueSpan?_unwritten hkey.bare hwrites
  obtain ⟨front, back, lead, trail, hplace, -, hmargins, happend⟩ := exists_place h.legible e.text
  have hlast := hplace.last_plain h.plain h.legible
  obtain ⟨rows', hcore, hleads, hseen, hnodes, hlayout⟩ := h.toObjectLayout.added hkey.bare hvalue hplace (.inl hlast)
  obtain ⟨htrails, hback, hfront⟩ := hseen hlast
  refine ⟨hspan, rows' ++ [newRow e.key e.value lead trail hplace.blank_lead hplace.blank_trail], [],
    ⟨?_, ?_⟩, ?_, ?_⟩
  · simp only [write, hspan]
    rw [h.text, happend]
    exact hlayout
  · rw [← hnodes]
    exact hplace.plain h.plain hkey hvalue
  · rw [h.text]
    exact marginsOf_added hleads htrails hback hfront hmargins
  · rw [List.map_append, hcore]
    rfl

/-- Where a core is written with the key, the value of the last is exchanged. -/
theorem write_known {rows : List Row} (h : PlainLayout t rows rest) (hkey : IsKey e.key)
    (hvalue : IsDigits e.value) {i : Nat} {part value : List Node}
    (hlast : LastKeyed e.key (rows.map Row.core) i part value) (hline : OneLine value) :
    ∃ span, valueSpan? t e.key = some span ∧ t.slice span = textOf value ∧
    ∃ rows', PlainLayout (t.splice span e.value) rows' rest ∧ marginsOf rows' rest = marginsOf rows rest ∧
      rows'.map Row.core = (rows.map Row.core).set i (part ++ [.number e.value]) := by
  obtain ⟨as, r, bs, rfl, rfl, hkeyed, hnone⟩ := hlast.exists_row
  have hlegible := h.legible
  have hplain := h.plain
  rw [hkeyed.rowNodes_eq] at hlegible hplain
  simp only [List.append_assoc, lexemesOf_append, legible_append] at hlegible
  simp only [List.append_assoc, plain_append] at hplain
  obtain ⟨-, hleadLegible, -, hvalueLegible, htrailLegible, -⟩ := hlegible
  obtain ⟨hbefore, hlead, hpart, hvaluePlain, htrail, hbehind⟩ := hplain
  have hwrites : Writes e.key r part value :=
    ⟨hkeyed, spaced_of_plain hleadLegible hlead r.blank_lead⟩
  have hsolid : Solid (part ++ value) := hkeyed.core ▸ r.solid
  have hbody : ∀ n, value.getLast? = some n → isGap n = false :=
    fun n hn => isGap_eq_false (hsolid.last_behind hn)
  obtain ⟨gap, behind, htrailCut, hgap, hstops, hmarks⟩ := exists_plain_cut hvalueLegible hvaluePlain
    hsolid.uncut_behind hline htrailLegible htrail r.blank_trail
  have hcut : value ++ r.trail = value ++ gap ++ behind := by rw [htrailCut, List.append_assoc]
  obtain ⟨span, r', hspan, hslice, hlead', hnodes', ⟨more, hcore, hmore⟩, hlayout⟩ :=
    h.toObjectLayout.rewritten hkey.label hvalue hwrites (h.toObjectLayout.unseen_behind hkey.bare hnone) hcut hgap
      hbody hmarks hstops
  obtain rfl : more = [] := by
    apply Classical.byContradiction
    intro hne
    exact hne (List.append_right_eq_self.1 (hmore.eq hne).symm)
  rw [← htrailCut] at hnodes'
  have htrail' : r'.trail = r.trail := by
    rw [Row.nodes, hlead', hcore, List.append_assoc, List.append_assoc] at hnodes'
    exact (List.cons.inj (List.append_cancel_left (List.append_cancel_left hnodes'))).2
  refine ⟨span, hspan, hslice, as ++ r' :: bs, ⟨hlayout, ?_⟩, ?_, ?_⟩
  · rw [rowNodes_append, hnodes']
    have hnumber : Plain (Node.number e.value :: r.trail) :=
      plain_append.2 ⟨plain_number hvalue, htrail⟩
    simp only [plain_append]
    exact ⟨⟨hbefore, hlead, hpart, hnumber⟩, hbehind⟩
  · simp only [marginsOf, List.map_append, List.map_cons, hlead', htrail']
  · rw [List.map_append, List.map_cons, hcore, List.map_append, List.map_cons,
      List.set_append_right _ _ (by rw [List.length_map])]
    simp

end PlainLayout

end ObjectText
end PugSize
