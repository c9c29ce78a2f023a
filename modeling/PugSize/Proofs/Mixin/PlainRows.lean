import PugSize.Proofs.Edit.Slots
import PugSize.Proofs.Mixin.Located

/-!
Calls whose arguments are laid out in rows. If no lexeme is a block comment, a line end behind a
backslash or a carriage return, the scanner for calls ends such a call behind its rows, and a size
written into them leaves it a call.
-/

namespace PugSize

open Script

/-- Whether a property holds of all lexemes of some nodes. -/
def HoldsOf (P : Lexeme → Prop) (ns : List Node) : Prop := ∀ l ∈ lexemesOf ns, P l

section Lexemes

variable {P : Lexeme → Prop}

theorem HoldsOf.append {as bs : List Node} (ha : HoldsOf P as) (hb : HoldsOf P bs) :
    HoldsOf P (as ++ bs) := by
  intro l hl
  rw [lexemesOf_append] at hl
  exact (List.mem_append.1 hl).elim (ha l) (hb l)

theorem holdsOf_row {r : Row} :
    HoldsOf P r.nodes ↔ HoldsOf P r.lead ∧ HoldsOf P r.core ∧ HoldsOf P r.trail := by
  constructor
  · intro h
    refine ⟨?_, ?_, ?_⟩ <;> (intro l hl; exact h l (by simp [Row.nodes, hl]))
  · rintro ⟨hlead, hcore, htrail⟩
    exact (hlead.append hcore).append htrail

theorem holdsOf_commas (hcomma : P commaLexeme) {segs : List (List Node)} :
    HoldsOf P (commas segs) ↔ ∀ seg ∈ segs, HoldsOf P seg := by
  induction segs with
  | nil => exact ⟨fun _ => nofun, fun _ => nofun⟩
  | cons seg segs ih =>
      rw [List.forall_mem_cons, ← ih]
      cases segs with
      | nil =>
          have hone : commas [seg] = seg := by simp [commas]
          rw [hone]
          exact ⟨fun h => ⟨h, nofun⟩, fun h => h.1⟩
      | cons s ss =>
          rw [commas_cons seg (List.cons_ne_nil _ _)]
          constructor
          · intro h
            exact ⟨fun l hl => h l (by simp [hl]), fun l hl => h l (by simp [hl])⟩
          · rintro ⟨hseg, hsegs⟩ l hl
            rw [lexemesOf_append, lexemesOf_cons] at hl
            obtain hl | hl := List.mem_append.1 hl
            · exact hseg l hl
            · obtain rfl | hl := List.mem_cons.1 hl
              · exact hcomma
              · exact hsegs l hl

theorem holdsOf_rowNodes (hcomma : P commaLexeme) {rows : List Row} {rest : List (List Node)} :
    HoldsOf P (rowNodes rows rest) ↔
      (∀ r ∈ rows, HoldsOf P r.nodes) ∧ ∀ seg ∈ rest, HoldsOf P seg := by
  rw [rowNodes, holdsOf_commas hcomma]
  simp only [List.mem_append, List.mem_map, or_imp, forall_and, forall_exists_index, and_imp,
    forall_apply_eq_imp_iff₂]

/-- Whether a property holds of the lexemes that a size is written with. -/
structure HoldsOfSizes (P : Lexeme → Prop) : Prop where
  comma : P commaLexeme
  space : P ⟨.trivia .blank, [' ']⟩
  number : ∀ t, IsDigits t → P ⟨.token .number, t⟩
  emptyString : ∀ quote, quote = '"' ∨ quote = '\'' → P ⟨.token .str, [quote, quote]⟩

theorem HoldsOfSizes.numberRow (h : HoldsOfSizes P) {value : Text} (hvalue : IsDigits value)
    {trail : List Node} (hblank : Blank trail) (htrail : HoldsOf P trail) :
    HoldsOf P (Slots.numberRow value trail hblank).nodes := by
  rw [holdsOf_row]
  refine ⟨?_, ?_, htrail⟩
  · intro l hl
    rw [List.mem_singleton.1 hl]
    exact h.space
  · intro l hl
    rw [List.mem_singleton.1 hl]
    exact h.number _ hvalue

theorem HoldsOfSizes.emptyRow (h : HoldsOfSizes P) {quote : Char}
    (hquote : quote = '"' ∨ quote = '\'') : HoldsOf P (Slots.emptyRow quote).nodes := by
  rw [holdsOf_row]
  refine ⟨?_, ?_, nofun⟩
  · intro l hl
    rw [List.mem_singleton.1 hl]
    exact h.space
  · intro l hl
    rw [List.mem_singleton.1 hl]
    exact h.emptyString _ hquote

theorem HoldsOfSizes.fillRow (h : HoldsOfSizes P) {value : Text} (hvalue : IsDigits value)
    (overwrite : Bool) {r : Row} (hr : HoldsOf P r.nodes) :
    HoldsOf P (Slots.fillRow overwrite value r).nodes := by
  obtain ⟨hlead, -, htrail⟩ := holdsOf_row.1 hr
  unfold Slots.fillRow
  split
  · refine holdsOf_row.2 ⟨hlead, ?_, htrail⟩
    intro l hl
    rw [List.mem_singleton.1 hl]
    exact h.number _ hvalue
  · exact hr

theorem holdsOf_withTrail {r : Row} (h : HoldsOf P r.nodes) :
    HoldsOf P (r.withTrail [] blank_nil).nodes := by
  obtain ⟨hlead, hcore, -⟩ := holdsOf_row.1 h
  exact holdsOf_row.2 ⟨hlead, hcore, nofun⟩

/-- What holds of the lexemes of rows and of sizes holds of the rows with a size written in. -/
theorem HoldsOfSizes.fillRows (h : HoldsOfSizes P) (size : Size) (overwrite : Bool) {rows : List Row}
    (hrows : ∀ r ∈ rows, HoldsOf P r.nodes) :
    ∀ r ∈ Slots.fillRows size overwrite rows, HoldsOf P r.nodes := by
  have hwidth := isDigits_decimal size.width
  have hheight := isDigits_decimal size.height
  match rows, hrows with
  | [], hrows => exact hrows
  | [file], hrows =>
      simp only [Slots.fillRows, List.forall_mem_cons, List.not_mem_nil, false_implies,
        implies_true, and_true] at hrows ⊢
      have hquote : Slots.quoteOfRow file = '"' ∨ Slots.quoteOfRow file = '\'' := by
        unfold Slots.quoteOfRow
        split
        · exact .inr rfl
        · exact .inl rfl
      exact ⟨holdsOf_withTrail hrows, h.emptyRow hquote, h.numberRow hwidth _ (List.forall_mem_nil _),
        h.numberRow hheight _ (holdsOf_row.1 hrows).2.2⟩
  | [file, alt], hrows =>
      simp only [Slots.fillRows, List.forall_mem_cons, List.not_mem_nil, false_implies,
        implies_true, and_true] at hrows ⊢
      exact ⟨hrows.1, holdsOf_withTrail hrows.2, h.numberRow hwidth _ (List.forall_mem_nil _),
        h.numberRow hheight _ (holdsOf_row.1 hrows.2).2.2⟩
  | [file, alt, w], hrows =>
      simp only [Slots.fillRows, List.forall_mem_cons, List.not_mem_nil, false_implies,
        implies_true, and_true] at hrows ⊢
      exact ⟨hrows.1, hrows.2.1, holdsOf_withTrail (h.fillRow hwidth overwrite hrows.2.2),
        h.numberRow hheight _ (holdsOf_row.1 hrows.2.2).2.2⟩
  | file :: alt :: w :: height :: more, hrows =>
      simp only [Slots.fillRows, List.forall_mem_cons] at hrows ⊢
      exact ⟨hrows.1, hrows.2.1, h.fillRow hwidth overwrite hrows.2.2.1,
        h.fillRow hheight overwrite hrows.2.2.2.1, hrows.2.2.2.2⟩

end Lexemes

namespace MixinCall

/-- Whether a lexeme is read by the scanner for calls as what it is, on lines without a carriage
return. -/
def Plain (l : Lexeme) : Prop := Tame l ∧ '\r' ∉ l.text

theorem plain_of_chars {kind : LexemeKind} {t : Text} (hkind : kind ≠ .trivia .blockComment)
    (h : ∀ c ∈ t, c ≠ '\n' ∧ c ≠ '\r') : Plain ⟨kind, t⟩ := by
  refine ⟨⟨hkind, ?_⟩, fun hc => (h _ hc).2 rfl⟩
  intro hwithin
  have hmem : '\n' ∈ t := hwithin.subset (by simp)
  exact (h _ hmem).1 rfl

theorem plain_sizes : HoldsOfSizes Plain where
  comma := plain_of_chars (by decide) (by simp)
  space := plain_of_chars (by decide) (by simp)
  number t ht := by
    apply plain_of_chars (by decide)
    intro c hc
    constructor
    · rintro rfl
      exact absurd (ht.2 _ hc) (by decide)
    · rintro rfl
      exact absurd (ht.2 _ hc) (by decide)
  emptyString quote hquote := by
    apply plain_of_chars (by decide)
    obtain rfl | rfl := hquote <;> simp

theorem infix_written {ls : List Lexeme} {l : Lexeme} (h : l ∈ ls) : l.text <:+: written ls := by
  obtain ⟨as, bs, rfl⟩ := List.append_of_mem h
  exact ⟨written as, written bs, by simp⟩

/-- The lexemes of a text without block comments, line ends behind a backslash and carriage
returns. -/
theorem plain_of_text {ns : List Node} {after : Text} (h : Legible (lexemesOf ns) after)
    (hcomment : ¬ ['/', '*'] <:+: textOf ns) (hline : ¬ ['\\', '\n'] <:+: textOf ns)
    (hreturn : '\r' ∉ textOf ns) : HoldsOf Plain ns := by
  intro l hl
  have hwithin : l.text <:+: textOf ns := infix_written hl
  refine ⟨⟨?_, fun hl => hline (hl.trans hwithin)⟩, fun hc => hreturn (hwithin.subset hc)⟩
  intro hkind
  obtain ⟨before, later, hparts⟩ := List.append_of_mem hl
  rw [hparts] at h
  have hspelling := (legible_append.1 h).2.1.spelling (by rw [hkind]; exact nofun)
  rw [hkind] at hspelling
  obtain ⟨kind, text⟩ := l
  cases hspelling with
  | blockComment hbody => exact hcomment (List.IsInfix.trans ⟨[], _, rfl⟩ hwithin)

theorem return_not_mem {ns : List Node} (h : HoldsOf Plain ns) : '\r' ∉ textOf ns := by
  intro hc
  obtain ⟨l, hl, hc⟩ := List.mem_flatMap.1 hc
  exact (h l hl).2 hc

/-- The arguments of a call that are laid out in rows end with the rows. -/
theorem arguments_eq {name args rest after : Text} {rows : List Row} {segs : List (List Node)}
    (hname : ∀ c ∈ name, isNameChar c = true)
    (hextent : extent? (marker name ++ (args ++ ')' :: rest)) = some (marker name, args))
    (hlayout : Layout args rows segs after) (hplain : HoldsOf Plain (rowNodes rows segs)) :
    args = textOf (rowNodes rows segs) ∧ after = [')'] := by
  obtain ⟨tail, htext, rfl⟩ := hlayout.exists_tail
  obtain ⟨later, -, hafter, -⟩ := hlayout.ending
  obtain ⟨more, hmore⟩ : ∃ more, tail ++ ')' :: rest = ')' :: more := by
    cases tail with
    | nil => exact ⟨rest, rfl⟩
    | cons c cs => exact ⟨cs ++ ')' :: rest, by rw [(List.cons.inj hafter).1]; rfl⟩
  have hlegible : Legible (lexemesOf (rowNodes rows segs)) (')' :: more) :=
    hlayout.legible.swap_head (.cons (by decide)) (by rw [hafter]; rfl)
  have hnodes := extent?_nodes hname hlegible fun l hl => (hplain l hl).1
  rw [← hmore, ← List.append_assoc (textOf _), ← htext, hextent, Option.some.injEq,
    Prod.mk.injEq] at hnodes
  have htail : tail = [] := by
    rw [hnodes.2] at htext
    exact List.self_eq_append_right.1 htext
  rw [htail]
  exact ⟨hnodes.2, rfl⟩

/-- A size written into the arguments of a call leaves it a call. -/
theorem extent?_write {name args rest : Text} {found : PositionalArguments}
    (hname : ∀ c ∈ name, isNameChar c = true)
    (hextent : extent? (marker name ++ (args ++ ')' :: rest)) = some (marker name, args))
    (hread : PositionalArguments.read args = .ok found)
    (hcomment : ¬ ['/', '*'] <:+: args) (hline : ¬ ['\\', '\n'] <:+: args) (hreturn : '\r' ∉ args)
    (size : Size) (overwrite : Bool) :
    let written := Slots.write args found.spans size overwrite
    '\r' ∉ written ∧
      extent? (marker name ++ (written ++ ')' :: rest)) = some (marker name, written) := by
  obtain ⟨file, rows, segs, after, e, hlayout, -, -, -, hspans⟩ :=
    PositionalArguments.read_eq_ok.1 hread
  obtain ⟨tail, htext, -⟩ := hlayout.exists_tail
  have hwithin : textOf (rowNodes (file :: rows) segs) <:+: args := ⟨[], tail, htext.symm⟩
  have hplain := plain_of_text hlayout.legible (fun h => hcomment (h.trans hwithin))
    (fun h => hline (h.trans hwithin)) (fun h => hreturn (hwithin.subset h))
  obtain ⟨-, rfl⟩ := arguments_eq hname hextent hlayout hplain
  have hrewritten := @Slots.layout_fillRows size overwrite _ _ _ _ hlayout
  have hwritten := List.append_cancel_right hrewritten.text
  have hparts := (holdsOf_rowNodes plain_sizes.comma).1 hplain
  have hplain' : HoldsOf Plain (rowNodes (Slots.fillRows size overwrite (file :: rows)) segs) :=
    (holdsOf_rowNodes plain_sizes.comma).2
      ⟨plain_sizes.fillRows size overwrite hparts.1, hparts.2⟩
  rw [hspans, hwritten]
  refine ⟨return_not_mem hplain', ?_⟩
  have hlegible := hrewritten.legible.swap_head (.cons (by decide)) (rfl : (')' :: rest).head? = _)
  exact extent?_nodes hname hlegible fun l hl => (hplain' l hl).1

end MixinCall
end PugSize
