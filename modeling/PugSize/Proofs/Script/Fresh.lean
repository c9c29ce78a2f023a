import PugSize.Proofs.Script.Arguments
import PugSize.Proofs.Script.Exchange

/-!
Nodes that are put into a text: numbers, spaces, commas and empty strings. A number stands before
every text that goes on with no token, so a core can be exchanged for a number, and values can be
added behind a core, without a change to the lexemes around them.
-/

namespace PugSize.Script

/-- A text of digits. -/
def IsDigits (t : Text) : Prop := t ≠ [] ∧ ∀ c ∈ t, c.isDigit = true

namespace Node

def number (t : Text) : Node := .leaf ⟨.token .number, t⟩ rfl

def space : Node := .leaf ⟨.trivia .blank, [' ']⟩ rfl

def emptyString (quote : Char) : Node := .leaf ⟨.token .str, [quote, quote]⟩ rfl

end Node

@[simp] theorem textOf_number (t : Text) : textOf [.number t] = t := textOf_leaf _ _

section

variable (ns : List Node)

@[simp] theorem textOf_comma_cons : textOf (.comma :: ns) = ',' :: textOf ns := rfl

@[simp] theorem textOf_space_cons : textOf (.space :: ns) = ' ' :: textOf ns := rfl

@[simp] theorem textOf_number_cons (t : Text) : textOf (.number t :: ns) = t ++ textOf ns := rfl

@[simp] theorem textOf_emptyString_cons (quote : Char) :
    textOf (.emptyString quote :: ns) = quote :: quote :: textOf ns := rfl

end

theorem firstLexeme?_digits {t : Text} (h : IsDigits t) :
    firstLexeme? t = some (.token .number, t.length) := by
  obtain ⟨hne, hdigits⟩ := h
  cases t with
  | nil => exact absurd rfl hne
  | cons c cs =>
      have hc := hdigits c List.mem_cons_self
      have hwhole : run isDigitMark (c :: cs) = (c :: cs).length := by
        have hall : (c :: cs).takeWhile isDigitMark = c :: cs :=
          List.takeWhile_eq_self_iff.2 fun d hd => isDigitMark_of_isDigit (hdigits d hd)
        rw [run, hall]
      have hdecimal : decimalLength (c :: cs) = (c :: cs).length := by
        simp only [decimalLength]
        rw [hwhole, List.drop_length]
        simp [fractionLength, exponentLength]
      have hhex := hexLength_le_length (c :: cs)
      rw [firstLexeme?_digit cs hc, hdecimal, Nat.max_eq_left hhex]

theorem stands_number {t rest : Text} (h : IsDigits t) (happart : Apart rest) :
    (⟨.token .number, t⟩ : Lexeme).Stands rest := by
  rw [Lexeme.stands_other (by simp)]
  apply firstLexeme?_append (firstLexeme?_digits h) happart
  rintro rfl
  exact absurd (h.2 '/' List.mem_cons_self) (by decide)

theorem stands_blank {c : Char} (h : isSkipped c = true) (rest : Text) :
    (⟨.trivia .blank, [c]⟩ : Lexeme).Stands rest :=
  (Lexeme.stands_blank rfl).2 ⟨c, rfl, h⟩

theorem stands_comma (rest : Text) : commaLexeme.Stands rest := by
  rw [Lexeme.stands_other (by decide)]
  exact firstLexeme?_mark (rfl : markKind? ',' = some .comma) rest

theorem stands_emptyString {quote : Char} (h : quote = '"' ∨ quote = '\'') (rest : Text) :
    (⟨.token .str, [quote, quote]⟩ : Lexeme).Stands rest := by
  rw [Lexeme.stands_other (by simp)]
  exact firstLexeme?_quoted (if_pos h) .nil rest

/-- Nodes each of which is put behind a comma and a space. -/
def added (ns : List Node) : List Node := ns.flatMap fun n => [.comma, .space, n]

/-- Whether a node may be put before every text that goes on with no token. -/
def Fresh (n : Node) : Prop := ∀ rest, Apart rest → Legible n.lexemes rest

theorem fresh_number {t : Text} (h : IsDigits t) : Fresh (.number t) :=
  fun _ happart => ⟨stands_number h happart, trivial⟩

theorem fresh_emptyString {quote : Char} (h : quote = '"' ∨ quote = '\'') :
    Fresh (.emptyString quote) :=
  fun _ _ => ⟨stands_emptyString h _, trivial⟩

theorem apart_comma (rest : Text) : Apart (',' :: rest) := .cons (by decide)

theorem legible_added {ns : List Node} (h : ∀ n ∈ ns, Fresh n) {after : Text} (hafter : Apart after) :
    Legible (lexemesOf (added ns)) after := by
  induction ns with
  | nil => trivial
  | cons n ns ih =>
      have hlater := ih fun m hm => h m (List.mem_cons_of_mem _ hm)
      have happart : Apart (textOf (added ns) ++ after) := by
        cases ns with
        | nil => exact hafter
        | cons m ms => exact apart_comma _
      have hn := h n List.mem_cons_self _ happart
      refine ⟨stands_comma _, stands_blank (by decide) _, ?_⟩
      change Legible (lexemesOf (n :: added ns)) after
      rw [lexemesOf_cons]
      exact legible_append.2 ⟨hn, hlater⟩

/-- Whether what follows some nodes may be changed at will. -/
def Shut (ns : List Node) : Prop := ∀ l, (lexemesOf ns).getLast? = some l → l.isClosed = true

/-- Nodes between others can be exchanged if what stands before them is shut. -/
theorem Legible.exchange {pre core core' post : List Node} {after : Text}
    (h : Legible (lexemesOf (pre ++ core ++ post)) after) (hpre : Shut pre)
    (hcore : Legible (lexemesOf core') (textOf post ++ after)) :
    Legible (lexemesOf (pre ++ core' ++ post)) after := by
  rw [lexemesOf_append, lexemesOf_append] at h ⊢
  obtain ⟨hfront, hpost⟩ := legible_append.1 h
  obtain ⟨hlead, -⟩ := legible_append.1 hfront
  exact legible_append.2 ⟨legible_append.2 ⟨hlead.swap_closed hpre, hcore⟩, hpost⟩

/-- Values can be added behind a token. -/
theorem Legible.insert {pre post ns : List Node} {after : Text}
    (h : Legible (lexemesOf (pre ++ post)) after) (hns : ∀ n ∈ ns, Fresh n) (hne : ns ≠ [])
    (hpre : ∀ l, (lexemesOf pre).getLast? = some l → ∃ kind, l.kind = .token kind)
    (hpost : Apart (textOf post ++ after)) :
    Legible (lexemesOf (pre ++ added ns ++ post)) after := by
  rw [lexemesOf_append] at h
  obtain ⟨hlead, hrest⟩ := legible_append.1 h
  rw [lexemesOf_append, lexemesOf_append]
  refine legible_append.2 ⟨legible_append.2 ⟨?_, legible_added hns hpost⟩, hrest⟩
  obtain ⟨n, ms, rfl⟩ := List.exists_cons_of_ne_nil hne
  have hcomma : some ',' ≠ some '/' := by decide
  exact hlead.swap_token (apart_comma _) hcomma hpre

/-- White space, comments and a comma at the front of nodes go on with no token. -/
theorem apart_textOf {ns : List Node} {after : Text} (h : Legible (lexemesOf ns) after)
    (hns : ∀ n, ns.head? = some n → n.isTrivia = true ∨ n = .comma) (hafter : Apart after) :
    Apart (textOf ns ++ after) := by
  cases ns with
  | nil => exact hafter
  | cons n ns =>
      obtain hn | rfl := hns n rfl
      · cases n with
        | leaf l plain =>
            have hl : l.Stands (written (lexemesOf ns) ++ after) := h.1
            have hkind : l.isClosed = true ∨ l.kind = .trivia .lineComment := by
              obtain hclosed | ⟨kind, hkind⟩ | hline := l.closed_or
              · exact .inl hclosed
              · rw [Node.isTrivia, hkind] at hn
                cases hn
              · exact .inr hline
            rw [textOf_cons, textOf_leaf, List.append_assoc]
            exact hl.apart_text hkind _
        | comma => cases hn
        | group shape inside => cases hn
      · rw [textOf_cons, textOf_comma, List.append_assoc]
        exact apart_comma _

theorem Spelling.head_not_skipped {kind : TokenKind} {t : Text} (h : Spelling (.token kind) t) :
    ∀ c, t.head? = some c → isSkipped c = false := by
  intro c hc
  cases h with
  | quoted hquote hbody =>
      cases hc
      obtain ⟨rfl | rfl, -⟩ | ⟨rfl, -⟩ := quoteKind?_eq_some hquote <;> decide
  | mark hmark =>
      cases hc
      have hmem := markKind?_eq_some hmark
      simp only [List.mem_cons, Prod.mk.injEq, List.not_mem_nil, or_false] at hmem
      obtain ⟨rfl, -⟩ | ⟨rfl, -⟩ | ⟨rfl, -⟩ | ⟨rfl, -⟩ | ⟨rfl, -⟩ | ⟨rfl, -⟩ | ⟨rfl, -⟩ | ⟨rfl, -⟩ :=
        hmem <;> decide
  | slash =>
      cases hc
      decide
  | word hword hne hneutral =>
      obtain ⟨cs, rfl⟩ := List.head?_eq_some_iff.1 hc
      have hc := hneutral c List.mem_cons_self
      simp only [isNeutral, Bool.not_eq_true', Bool.or_eq_false_iff] at hc
      exact hc.1.2

theorem Node.head_not_skipped {n : Node} {after : Text} (h : Legible n.lexemes after)
    (hn : n.isTrivia = false) : ∀ c, (textOf [n]).head? = some c → isSkipped c = false := by
  cases n with
  | leaf l plain =>
      rw [textOf_leaf]
      obtain ⟨kind, text⟩ := l
      cases kind with
      | trivia kind => cases hn
      | token kind => exact (h.1.spelling (by simp)).head_not_skipped
  | comma =>
      rintro c ⟨⟩
      decide
  | group shape inside =>
      cases shape <;> (rintro c ⟨⟩; decide)

end PugSize.Script
