import PugSize.Proofs.Edit.KeySearch
import PugSize.Proofs.Script.LongestLexeme

/-!
Properties that are written with their key. What the search for a key matches at the front of nodes
is a name or a quoted name, a colon, and white space on both sides of it. Of a key that needs quotes
this holds only where the nodes are read under the key: `data-width: 1` is matched as well.
-/

namespace PugSize

open Script

namespace ObjectText

def isGap : Node → Bool
  | .leaf l _ => l.kind == .trivia .blank && l.text.all Text.isBlank
  | _ => false

/-- Nodes of white space, byte-order marks apart. -/
def Gap (ns : List Node) : Prop := ∀ n ∈ ns, isGap n = true

def colonNode : Node := .leaf ⟨.token .colon, [':']⟩ rfl

@[simp] theorem textOf_colon_cons (ns : List Node) : textOf (colonNode :: ns) = ':' :: textOf ns := rfl

def IsName (key : Text) (l : Lexeme) : Prop :=
  l = ⟨.token .ident, key⟩ ∨ l = ⟨.token .number, key⟩ ∨
    ∃ q, (q = '"' ∨ q = '\'') ∧ l = ⟨.token .str, q :: key ++ [q]⟩

theorem IsName.text {key : Text} {l : Lexeme} (h : IsName key l) :
    ∃ quote, (quote = [] ∨ quote = ['"'] ∨ quote = ['\'']) ∧ l.text = quote ++ key ++ quote := by
  obtain rfl | rfl | ⟨q, rfl | rfl, rfl⟩ := h
  · exact ⟨[], .inl rfl, by simp⟩
  · exact ⟨[], .inl rfl, by simp⟩
  · exact ⟨['"'], .inr (.inl rfl), rfl⟩
  · exact ⟨['\''], .inr (.inr rfl), rfl⟩

/-- A key with its colon and the white space around it. -/
inductive KeyPart (key : Text) : List Node → Prop
  | mk {name : Lexeme} (plain : name.isPlain = true) {gap gap' : List Node} (hname : IsName key name)
      (hgap : Gap gap) (hgap' : Gap gap') :
      KeyPart key (.leaf name plain :: gap ++ colonNode :: gap')

theorem Gap.text {ns : List Node} (h : Gap ns) : ∀ c ∈ textOf ns, Text.isBlank c = true := by
  induction ns with
  | nil => exact nofun
  | cons n ns ih =>
      have hn := h n List.mem_cons_self
      have hns := ih fun m hm => h m (List.mem_cons_of_mem _ hm)
      cases n with
      | leaf l plain =>
          simp only [isGap, Bool.and_eq_true, List.all_eq_true] at hn
          intro c hc
          rw [textOf_cons, textOf_leaf, List.mem_append] at hc
          exact hc.elim (hn.2 c) (hns c)
      | comma => cases hn
      | group shape inside => cases hn

/-- White space at the front of nodes, and nodes that do not begin with any. -/
theorem exists_gap (ns : List Node) :
    ∃ gap later, ns = gap ++ later ∧ Gap gap ∧ ∀ n, later.head? = some n → isGap n = false := by
  induction ns with
  | nil => exact ⟨[], [], rfl, nofun, nofun⟩
  | cons n ns ih =>
      by_cases hn : isGap n = true
      · obtain ⟨gap, later, rfl, hgap, hlater⟩ := ih
        exact ⟨n :: gap, later, rfl, List.forall_mem_cons.2 ⟨hn, hgap⟩, hlater⟩
      · refine ⟨[], n :: ns, rfl, nofun, ?_⟩
        intro m hm
        rw [← Option.some.inj hm]
        simpa using hn

theorem not_isBlank_of_isGap {n : Node} {ns : List Node} {after : Text}
    (h : Legible (lexemesOf (n :: ns)) after) (hn : isGap n = false) :
    ∀ c, (textOf (n :: ns)).head? = some c → Text.isBlank c = false := by
  intro c hc
  have hhead : (textOf [n]).head? = some c := by
    have hne : textOf [n] ≠ [] := by
      rw [lexemesOf_cons, ← List.append_nil n.lexemes, ← lexemesOf_nil, ← lexemesOf_cons] at h
      exact textOf_ne_nil (legible_append.1 h).1 (List.cons_ne_nil _ _)
    rwa [textOf_cons, List.head?_append_of_ne_nil _ hne] at hc
  by_cases htrivia : n.isTrivia = true
  · cases n with
    | leaf l plain =>
        rw [textOf_leaf] at hhead
        have hl : l.Stands _ := h.1
        by_cases hblank : l.kind = .trivia .blank
        · obtain ⟨d, htext, -⟩ := (Lexeme.stands_blank hblank).1 hl
          rw [htext] at hhead
          obtain rfl : d = c := Option.some.inj hhead
          simpa [isGap, hblank, htext] using hn
        · have hspelling := hl.spelling hblank
          obtain ⟨kind, text⟩ := l
          cases hspelling with
          | lineComment hbody =>
              obtain rfl := Option.some.inj hhead
              decide
          | blockComment hbody =>
              obtain rfl := Option.some.inj hhead
              decide
          | quoted hquote hbody => cases htrivia
          | mark hmark => cases htrivia
          | slash => cases htrivia
          | word hword hne hneutral =>
              simp only [List.mem_cons, List.not_mem_nil, or_false] at hword
              obtain rfl | rfl | rfl | rfl := hword <;> cases htrivia
    | comma => cases htrivia
    | group shape inside => cases htrivia
  · have hskipped := Node.head_not_skipped (legible_append.1 h).1 (by simpa using htrivia) c hhead
    simp only [isSkipped, Bool.or_eq_false_iff] at hskipped
    exact hskipped.1

theorem takeWhile_gap {gap later : List Node} {after : Text}
    (h : Legible (lexemesOf later) after) (hgap : Gap gap)
    (hlater : ∀ n, later.head? = some n → isGap n = false)
    (hafter : ∀ c, after.head? = some c → Text.isBlank c = false) :
    (textOf (gap ++ later) ++ after).takeWhile Text.isBlank = textOf gap := by
  have hstop : ∀ c, (textOf later ++ after).head? = some c → Text.isBlank c = false := by
    cases later with
    | nil => exact hafter
    | cons n ns =>
        rw [List.head?_append_of_ne_nil _ (textOf_ne_nil h (List.cons_ne_nil _ _))]
        exact not_isBlank_of_isGap h (hlater n rfl)
  rw [textOf_append, List.append_assoc, List.takeWhile_append_of_pos hgap.text]
  cases hrest : textOf later ++ after with
  | nil => exact List.append_nil _
  | cons c cs =>
      rw [List.takeWhile_cons_of_neg (by simp [hstop c (by rw [hrest]; rfl)]), List.append_nil]

theorem keyLengthIn?_eq {quote key gap more : Text} (hgap : ∀ c ∈ gap, Text.isBlank c = true) :
    keyLengthIn? quote key (quote ++ key ++ quote ++ gap ++ ':' :: more) =
      some ((quote ++ key ++ quote ++ gap).length + 1 + (more.takeWhile Text.isBlank).length) := by
  have htake : (gap ++ ':' :: more).takeWhile Text.isBlank = gap := by
    rw [List.takeWhile_append_of_pos hgap, List.takeWhile_cons_of_neg (by decide), List.append_nil]
  have hmatch : (quote ++ key ++ quote).isPrefixOf
      (quote ++ key ++ quote ++ gap ++ ':' :: more) = true := by
    rw [List.append_assoc _ gap]
    exact List.isPrefixOf_iff_prefix.2 (List.prefix_append _ _)
  unfold keyLengthIn?
  simp only [hmatch, if_true]
  rw [List.append_assoc _ gap, List.drop_left, htake, List.drop_left]
  simp [Nat.add_assoc]

theorem firstLexeme?_key {key : Text} (hkey : IsKey key) : firstLexeme? key = some (.token .ident, key.length) := by
  obtain ⟨⟨c, cs, rfl, hc⟩, hcontinues⟩ := hkey
  have hall : cs.takeWhile isIdentContinue = cs :=
    List.takeWhile_eq_self_iff.2 fun d hd => hcontinues d (List.mem_cons_of_mem _ hd)
  rw [firstLexeme?_ident cs hc, run, hall, Nat.add_comm, List.length_cons]

/-- The token that a key without quotes is. -/
def bareKind (key : Text) : TokenKind :=
  if firstLexeme? key = some (.token .number, key.length) then .number else .ident

theorem firstLexeme?_bare {key : Text} (hkey : IsBare key) {rest : Text} (hrest : Apart rest) :
    firstLexeme? (key ++ rest) = some (.token (bareKind key), key.length) := by
  have hone : firstLexeme? key = some (.token (bareKind key), key.length) := by
    unfold bareKind
    split
    · assumption
    · rename_i hnumber
      exact firstLexeme?_key (hkey.resolve_right hnumber)
  refine firstLexeme?_append hone hrest fun hslash => ?_
  exact absurd (hkey.numeric.2 '/' (by rw [hslash]; exact List.mem_singleton_self _)) (by decide)

theorem isName_bare (key : Text) : IsName key ⟨.token (bareKind key), key⟩ := by
  unfold bareKind
  split
  · exact .inr (.inl rfl)
  · exact .inl rfl

/-- A lexeme is told from the text that begins with it. -/
theorem eq_of_firstLexeme? {l : Lexeme} {rest name more : Text} {kind : TokenKind} (h : l.Stands rest)
    (ht : l.text ++ rest = name ++ more) (hfirst : firstLexeme? (name ++ more) = some (.token kind, name.length)) :
    l = ⟨.token kind, name⟩ ∧ rest = more := by
  have hblank : l.kind ≠ .trivia .blank := by
    intro hblank
    obtain ⟨c, htext, hc⟩ := (Lexeme.stands_blank hblank).1 h
    rw [← ht, htext, List.singleton_append, firstLexeme?_skipped _ hc] at hfirst
    cases hfirst
  have hl := (Lexeme.stands_other hblank).1 h
  rw [ht, hfirst, Option.some.injEq, Prod.mk.injEq] at hl
  obtain ⟨htext, hrest⟩ := List.append_inj ht hl.2.symm
  obtain ⟨lkind, ltext⟩ := l
  obtain rfl : LexemeKind.token kind = lkind := hl.1
  obtain rfl : ltext = name := htext
  exact ⟨rfl, hrest⟩

theorem head_of_string {l : Lexeme} {rest : Text} (h : l.Stands rest) (hkind : l.kind = .token .str) :
    ∃ q more, (q = '"' ∨ q = '\'') ∧ l.text = q :: more := by
  have hspelling := h.spelling (by rw [hkind]; exact nofun)
  rw [hkind] at hspelling
  generalize l.text = t at hspelling
  cases hspelling with
  | @quoted quote body kind hquote hbody =>
      obtain ⟨hq, -⟩ | ⟨-, hkind⟩ := quoteKind?_eq_some hquote
      · exact ⟨quote, body ++ [quote], hq, rfl⟩
      · cases hkind
  | mark hmark =>
      have := markKind?_eq_some hmark
      simp at this
  | word hword hne hneutral => simp at hword

section

variable {key : Text} (hkey : IsLabel key)

include hkey

theorem quotedBody_key {q : Char} (hq : q = '"' ∨ q = '\'') : QuotedBody q key := by
  have hall : ∀ t : Text, (∀ c ∈ t, c ∈ key) → QuotedBody q t := by
    intro t ht
    induction t with
    | nil => exact .nil
    | cons c cs ih =>
        have hplain := hkey.plain c (ht c List.mem_cons_self)
        simp only [List.mem_cons, List.not_mem_nil, or_false, not_or] at hplain
        obtain ⟨-, -, -, -, hslash, hdouble, hsingle, hline⟩ := hplain
        refine .plain hslash ?_ (fun h => absurd h hline) (ih fun d hd => ht d (List.mem_cons_of_mem _ hd))
        obtain rfl | rfl := hq
        · exact hdouble
        · exact hsingle
  exact hall key fun c hc => hc

/-- The lexeme at the front of what begins with the key in quotes is the key in quotes. -/
theorem name_of_quoted {l : Lexeme} {q : Char} (hq : q = '"' ∨ q = '\'') {rest more : Text} (h : l.Stands rest)
    (ht : l.text ++ rest = [q] ++ key ++ [q] ++ more) : IsName key l ∧ rest = more := by
  have hquoted := firstLexeme?_quoted (if_pos hq) (quotedBody_key hkey hq) more
  obtain ⟨rfl, hrest⟩ := @eq_of_firstLexeme? l rest ([q] ++ key ++ [q]) more .str h ht (by simpa using hquoted)
  exact ⟨.inr (.inr ⟨q, hq, rfl⟩), hrest⟩

theorem not_quote : ∀ c ∈ key, ¬ (c = '"' ∨ c = '\'') := by
  intro c hc hquote
  have hplain := hkey.plain c hc
  obtain rfl | rfl := hquote
  · exact hplain (by simp)
  · exact hplain (by simp)

end

/-- Whether nodes begin with a token that is read as a key. -/
def ReadAs (key : Text) (ns : List Node) : Prop :=
  ∃ (l : Lexeme) (plain : l.isPlain = true) (more : List Node) (kind : TokenKind), ns = .leaf l plain :: more ∧
    l.kind = .token kind ∧ ∀ start, Token.key? ⟨kind, l.text, start⟩ = some key

/-- Whether nodes that look like a key are the key: they are if it needs no quotes, or if they are read as it. -/
def Named (key : Text) (ns : List Node) : Prop := IsBare key ∨ IsLabel key ∧ ReadAs key ns

theorem Named.label {key : Text} {ns : List Node} (h : Named key ns) : IsLabel key :=
  h.elim IsBare.label And.left

/-- The lexeme at the front of what looks like the key is its name. -/
theorem Named.name {key : Text} {l : Lexeme} {plain : l.isPlain = true} {ns : List Node}
    (hnamed : Named key (.leaf l plain :: ns)) {rest quote gap more : Text} (h : l.Stands rest)
    (hquote : quote = [] ∨ quote = ['"'] ∨ quote = ['\'']) (hgap : ∀ c ∈ gap, Text.isBlank c = true)
    (ht : l.text ++ rest = quote ++ key ++ quote ++ gap ++ ':' :: more) :
    IsName key l ∧ rest = gap ++ ':' :: more := by
  rw [List.append_assoc _ gap] at ht
  obtain rfl | rfl | rfl := hquote
  · rw [List.nil_append, List.append_nil] at ht
    obtain hkey | ⟨hkey, l', plain', ns', kind, heq, hkind, hread⟩ := hnamed
    · have hapart : Apart (gap ++ ':' :: more) := by
        cases gap with
        | nil => exact .cons (by decide)
        | cons d ds =>
            exact .cons (isSeparator_of_isSkipped (isSkipped_of_isBlank (hgap d List.mem_cons_self)))
      obtain ⟨rfl, hrest⟩ := eq_of_firstLexeme? h ht (firstLexeme?_bare hkey hapart)
      exact ⟨isName_bare key, hrest⟩
    · cases heq
      have hbare (heq : l.text = key) : rest = gap ++ ':' :: more := by
        rw [heq] at ht
        exact List.append_cancel_left ht
      obtain ⟨found, text⟩ := l
      simp only at hkind hbare hread
      subst hkind
      cases kind with
      | ident =>
          obtain rfl := Option.some.inj (hread 0)
          exact ⟨.inl rfl, hbare rfl⟩
      | number =>
          obtain rfl := Option.some.inj (hread 0)
          exact ⟨.inr (.inl rfl), hbare rfl⟩
      | str =>
          obtain ⟨q, behind, hq, htext⟩ := head_of_string h rfl
          obtain ⟨c, cs, rfl, -⟩ := hkey.head
          obtain rfl : text = q :: behind := htext
          rw [(List.cons.inj ht).1] at hq
          exact absurd hq (not_quote hkey c List.mem_cons_self)
      | _ => cases hread 0
  · exact name_of_quoted hnamed.label (.inl rfl) h ht
  · exact name_of_quoted hnamed.label (.inr rfl) h ht

section

variable {ns : List Node} {more after : Text} (h : Legible (lexemesOf ns) ('}' :: after))

include h

/-- A colon that nodes begin with is a node of its own. -/
theorem exists_colonNode (ht : textOf ns ++ '}' :: after = ':' :: more) : ∃ later, ns = colonNode :: later := by
  cases ns with
  | nil => exact absurd (List.cons.inj ht).1 (by decide)
  | cons n ns =>
      refine ⟨ns, ?_⟩
      cases n with
      | leaf l plain =>
          rw [textOf_cons, textOf_leaf, List.append_assoc] at ht
          have hl : l.Stands (textOf ns ++ '}' :: after) := h.1
          have hblank : l.kind ≠ .trivia .blank := by
            intro hblank
            obtain ⟨c, htext, hc⟩ := (Lexeme.stands_blank hblank).1 hl
            rw [htext] at ht
            rw [(List.cons.inj ht).1] at hc
            cases hc
          rw [Lexeme.stands_other hblank, ht, firstLexeme?_mark (rfl : markKind? ':' = some .colon),
            Option.some.injEq, Prod.mk.injEq] at hl
          obtain ⟨c, hc⟩ := List.length_eq_one_iff.1 hl.2.symm
          rw [hc] at ht
          obtain rfl := (List.cons.inj ht).1
          obtain ⟨kind, text⟩ := l
          obtain rfl : LexemeKind.token .colon = kind := hl.1
          obtain rfl : text = [':'] := hc
          rfl
      | comma => exact absurd (List.cons.inj ht).1 (by decide)
      | group shape inside =>
          rw [textOf_cons, textOf_group] at ht
          cases shape <;> exact absurd (List.cons.inj ht).1 (by decide)

/-- White space that nodes begin with is a node of its own. -/
theorem exists_gapNode {c : Char} (hc : Text.isBlank c = true) (ht : textOf ns ++ '}' :: after = c :: more) :
    ∃ n later, ns = n :: later ∧ isGap n = true ∧ textOf [n] = [c] ∧
      Legible (lexemesOf later) ('}' :: after) ∧ textOf later ++ '}' :: after = more := by
  have hne : ∀ d, Text.isBlank d = false → c ≠ d := by
    rintro d hd rfl
    rw [hc] at hd
    cases hd
  cases ns with
  | nil => exact absurd (List.cons.inj ht).1.symm (hne '}' (by decide))
  | cons n ns =>
      cases n with
      | leaf l plain =>
          rw [textOf_cons, textOf_leaf, List.append_assoc] at ht
          have hl : l.Stands (textOf ns ++ '}' :: after) := h.1
          have hblank : l.kind = .trivia .blank := by
            apply Classical.byContradiction
            intro hblank
            rw [Lexeme.stands_other hblank, ht, firstLexeme?_skipped _ (by simp [isSkipped, hc])] at hl
            exact hblank (Prod.mk.inj (Option.some.inj hl)).1.symm
          obtain ⟨d, htext, -⟩ := (Lexeme.stands_blank hblank).1 hl
          rw [htext] at ht
          obtain ⟨rfl, htail⟩ := List.cons.inj ht
          exact ⟨_, ns, rfl, by simp [isGap, hblank, htext, hc], by rw [textOf_leaf, htext], h.2, htail⟩
      | comma => exact absurd (List.cons.inj ht).1.symm (hne ',' (by decide))
      | group shape inside =>
          rw [textOf_cons, textOf_group] at ht
          cases shape
          · exact absurd (List.cons.inj ht).1.symm (hne '(' (by decide))
          · exact absurd (List.cons.inj ht).1.symm (hne '[' (by decide))
          · exact absurd (List.cons.inj ht).1.symm (hne '{' (by decide))

end

/-- White space and a colon are nodes of their own. -/
theorem exists_colon {gap more after : Text} (hgap : ∀ c ∈ gap, Text.isBlank c = true)
    {ns : List Node} (h : Legible (lexemesOf ns) ('}' :: after))
    (ht : textOf ns ++ '}' :: after = gap ++ ':' :: more) :
    ∃ gapNodes later, ns = gapNodes ++ colonNode :: later ∧ Gap gapNodes ∧ textOf gapNodes = gap := by
  induction gap generalizing ns with
  | nil =>
      obtain ⟨later, rfl⟩ := exists_colonNode h ht
      exact ⟨[], later, rfl, nofun, rfl⟩
  | cons c gap ih =>
      obtain ⟨n, rest, rfl, hn, htext, hrest, htail⟩ := exists_gapNode h (hgap c List.mem_cons_self) ht
      obtain ⟨gapNodes, later, rfl, hnodes, rfl⟩ :=
        ih (fun e he => hgap e (List.mem_cons_of_mem _ he)) hrest htail
      refine ⟨n :: gapNodes, later, rfl, List.forall_mem_cons.2 ⟨hn, hnodes⟩, ?_⟩
      rw [textOf_cons, htext]
      rfl

/-- A key that needs no quotes begins as a word does, or with a quote. -/
theorem head_of_isBare {key : Text} (hkey : IsBare key) {c : Char} {cs : Text} {n : Nat}
    (h : keyLength? key (c :: cs) = some n) : isNeutral c = true ∨ c = '"' ∨ c = '\'' := by
  obtain ⟨hne, hnumeric⟩ := hkey.numeric
  obtain ⟨d, ds, rfl⟩ := List.exists_cons_of_ne_nil hne
  obtain ⟨quote, gap, more, hquote, -, ht, -⟩ := keyLength?_eq_some h
  obtain rfl | rfl | rfl := hquote
  · have hc : c = d := (List.cons.inj ht).1
    exact .inl (hc ▸ isNeutral_of_isNumeric (hnumeric d List.mem_cons_self))
  · exact .inr (.inl (List.cons.inj ht).1)
  · exact .inr (.inr (List.cons.inj ht).1)

/-- What the search matches in front of nodes are nodes. -/
theorem exists_keyPart {key : Text} {ns : List Node} {after : Text} {n : Nat} (hnamed : Named key ns)
    (h : Legible (lexemesOf ns) ('}' :: after))
    (hlength : keyLength? key (textOf ns ++ '}' :: after) = some n) :
    ∃ part later, ns = part ++ later ∧ KeyPart key part ∧
      (∀ m, later.head? = some m → isGap m = false) ∧ n = (textOf part).length := by
  cases ns with
  | nil => exact absurd (head_of_keyLength? hnamed.label hlength) (by decide)
  | cons node ns =>
      cases node with
      | leaf l plain =>
          obtain ⟨quote, gap, more, hquote, hgap, ht, hn⟩ := keyLength?_eq_some hlength
          have hl : l.Stands (textOf ns ++ '}' :: after) := h.1
          have hns : Legible (lexemesOf ns) ('}' :: after) := h.2
          rw [textOf_cons, textOf_leaf, List.append_assoc] at ht
          obtain ⟨hname, hrest⟩ := hnamed.name hl hquote hgap ht
          obtain ⟨gapNodes, later, rfl, hnodes, rfl⟩ := exists_colon hgap hns hrest
          obtain ⟨gap', value, rfl, hgap', hvalue⟩ := exists_gap later
          refine ⟨.leaf l plain :: gapNodes ++ colonNode :: gap', value, by simp,
            .mk plain hname hnodes hgap', hvalue, ?_⟩
          rw [List.append_cons, lexemesOf_append, lexemesOf_append] at hns
          have hlater := (legible_append.1 hns).2
          rw [lexemesOf_append] at hlater
          have hmore : more = textOf (gap' ++ value) ++ '}' :: after := by
            rw [textOf_append, List.append_assoc, List.append_cancel_left_eq] at hrest
            exact (List.cons.inj hrest).2.symm
          have htake := takeWhile_gap (legible_append.1 hlater).2 hgap' hvalue
            (by rintro c ⟨⟩; decide : ∀ c, ('}' :: after).head? = some c → Text.isBlank c = false)
          have hhead : l.text = quote ++ key ++ quote := by
            rw [hrest, List.append_assoc _ (textOf gapNodes)] at ht
            exact List.append_cancel_right ht
          rw [hmore, htake, ← hhead] at hn
          have htext : textOf (.leaf l plain :: gapNodes ++ colonNode :: gap') =
              l.text ++ textOf gapNodes ++ ':' :: textOf gap' := by
            rw [textOf_append, textOf_cons, textOf_leaf]
            rfl
          rw [hn, htext]
          simp only [List.length_append, List.length_cons]
          omega
      | comma => exact absurd (head_of_keyLength? hnamed.label hlength) (by decide)
      | group shape inside =>
          obtain hkey | ⟨-, l, plain, more, kind, heq, -⟩ := hnamed
          · rw [textOf_cons, textOf_group] at hlength
            cases shape <;> exact absurd (head_of_isBare hkey hlength) (by decide)
          · cases heq

/-- Whether a property is written with a key, bare or in quotes, and a colon. -/
def isWritten (key t : Text) : Bool :=
  [[], ['"'], ['\'']].any fun quote =>
    let name := quote ++ key ++ quote
    name.isPrefixOf t && ((t.drop name.length).dropWhile Text.isBlank).head? == some ':'

theorem isWritten_iff {key t : Text} :
    isWritten key t = true ↔ ∃ quote gap more, (quote = [] ∨ quote = ['"'] ∨ quote = ['\'']) ∧
      (∀ c ∈ gap, Text.isBlank c = true) ∧ t = quote ++ key ++ quote ++ gap ++ ':' :: more := by
  have hone (quote : Text) : ((quote ++ key ++ quote).isPrefixOf t &&
      ((t.drop (quote ++ key ++ quote).length).dropWhile Text.isBlank).head? == some ':') = true ↔
      ∃ gap more, (∀ c ∈ gap, Text.isBlank c = true) ∧
        t = quote ++ key ++ quote ++ gap ++ ':' :: more := by
    rw [Bool.and_eq_true, List.isPrefixOf_iff_prefix, beq_iff_eq]
    constructor
    · rintro ⟨⟨rest, rfl⟩, hhead⟩
      rw [List.drop_left] at hhead
      obtain ⟨more, hmore⟩ := List.head?_eq_some_iff.1 hhead
      refine ⟨rest.takeWhile Text.isBlank, more, fun c hc => List.mem_takeWhile_imp hc, ?_⟩
      rw [List.append_assoc _ _ (':' :: more), ← hmore, List.takeWhile_append_dropWhile]
    · rintro ⟨gap, more, hgap, rfl⟩
      rw [List.append_assoc _ gap, List.drop_left, List.dropWhile_append_of_pos hgap,
        List.dropWhile_cons_of_neg (by decide)]
      exact ⟨List.prefix_append _ _, rfl⟩
  rw [isWritten, List.any_eq_true]
  constructor
  · rintro ⟨quote, hquote, hmatch⟩
    obtain ⟨gap, more, hgap, ht⟩ := (hone quote).1 hmatch
    exact ⟨quote, gap, more, by simpa using hquote, hgap, ht⟩
  · rintro ⟨quote, gap, more, hquote, hgap, ht⟩
    exact ⟨quote, by simpa using hquote, (hone quote).2 ⟨gap, more, hgap, ht⟩⟩

section

variable {key : Text} (hkey : IsLabel key)

include hkey

theorem keyLength?_eq {quote gap : Text} (hquote : quote = [] ∨ quote = ['"'] ∨ quote = ['\''])
    (hgap : ∀ c ∈ gap, Text.isBlank c = true) (more : Text) :
    keyLength? key (quote ++ key ++ quote ++ gap ++ ':' :: more) =
      some ((quote ++ key ++ quote ++ gap).length + 1 + (more.takeWhile Text.isBlank).length) := by
  have hlength := @keyLengthIn?_eq quote key gap more hgap
  have hquoted (q : Char) (hq : q = '"' ∨ q = '\'') (h : quote = [q]) :
      keyLength? key (quote ++ key ++ quote ++ gap ++ ':' :: more) =
        some ((quote ++ key ++ quote ++ gap).length + 1 + (more.takeWhile Text.isBlank).length) := by
    subst h
    unfold keyLength?
    simp only [List.cons_append, List.nil_append, if_pos hq] at hlength ⊢
    rw [hlength]
    rfl
  obtain rfl | hquote | hquote := hquote
  · obtain ⟨c, cs, rfl, -⟩ := hkey.head
    have hnot : ¬ (c = '"' ∨ c = '\'') := not_quote hkey c List.mem_cons_self
    unfold keyLength?
    simp only [List.cons_append, List.nil_append, List.append_nil, if_neg hnot] at hlength ⊢
    exact hlength
  · exact hquoted '"' (.inl rfl) hquote
  · exact hquoted '\'' (.inr rfl) hquote

theorem keyLength?_of_isWritten {t : Text} (h : isWritten key t = true) (rest : Text) :
    ∃ n, keyLength? key (t ++ rest) = some n := by
  obtain ⟨quote, gap, more, hquote, hgap, rfl⟩ := isWritten_iff.1 h
  have hlength := keyLength?_eq hkey hquote hgap (more ++ rest)
  exact ⟨_, by rw [List.append_assoc, List.cons_append, hlength]⟩

/-- A property is written with one key at most. -/
theorem isWritten_unique {key' : Text} (hkey' : IsLabel key') {t : Text} (h : isWritten key t = true)
    (h' : isWritten key' t = true) : key = key' := by
  obtain ⟨quote, gap, more, hquote, hgap, rfl⟩ := isWritten_iff.1 h
  obtain ⟨quote', gap', more', hquote', hgap', ht⟩ := isWritten_iff.1 h'
  obtain ⟨hname, -⟩ := append_colon_inj (colon_not_mem hkey hquote hgap) (colon_not_mem hkey' hquote' hgap') ht
  have htrim := congrArg Text.trimEnd hname
  have hleft := trimEnd_name hkey hquote [] hgap
  have hright := trimEnd_name hkey' hquote' [] hgap'
  rw [List.nil_append, List.nil_append] at hleft hright
  rw [hleft, hright] at htrim
  have hbare {a b : Text} (ha : IsLabel a) {q : Char} (hq : q = '"' ∨ q = '\'') (heq : a = [q] ++ b ++ [q]) :
      False := not_quote ha q (by rw [heq]; simp) hq
  have hsame {a b : Text} {q r : Char} (heq : [q] ++ a ++ [q] = [r] ++ b ++ [r]) : a = b :=
    (List.append_inj' (List.cons.inj heq).2 rfl).1
  obtain rfl | rfl | rfl := hquote <;> obtain rfl | rfl | rfl := hquote'
  · simpa using htrim
  · exact (hbare hkey (.inl rfl) (by simpa using htrim)).elim
  · exact (hbare hkey (.inr rfl) (by simpa using htrim)).elim
  · exact (hbare hkey' (.inl rfl) (by simpa using htrim.symm)).elim
  · exact hsame htrim
  · exact hsame htrim
  · exact (hbare hkey' (.inr rfl) (by simpa using htrim.symm)).elim
  · exact hsame htrim
  · exact hsame htrim

theorem keyLength?_keyPart {part later : List Node} {after : Text}
    (h : Legible (lexemesOf later) after) (hpart : KeyPart key part)
    (hlater : ∀ m, later.head? = some m → isGap m = false)
    (hafter : ∀ c, after.head? = some c → Text.isBlank c = false) :
    keyLength? key (textOf (part ++ later) ++ after) = some (textOf part).length := by
  obtain ⟨plain, hname, hgap, hgap'⟩ := hpart
  rename_i name gap gap'
  have htext : textOf (.leaf name plain :: gap ++ colonNode :: gap' ++ later) ++ after =
      name.text ++ textOf gap ++ ':' :: (textOf (gap' ++ later) ++ after) := by
    rw [textOf_append, textOf_append, textOf_cons, textOf_leaf, textOf_append]
    simp
  have htake := takeWhile_gap h hgap' hlater hafter
  have hwhole : (textOf (.leaf name plain :: gap ++ colonNode :: gap')).length =
      (name.text ++ textOf gap).length + 1 + (textOf gap').length := by
    have hpart : textOf (.leaf name plain :: gap ++ colonNode :: gap') =
        name.text ++ textOf gap ++ ':' :: textOf gap' := by
      rw [textOf_append, textOf_cons, textOf_leaf]
      rfl
    rw [hpart]
    simp only [List.length_append, List.length_cons]
    omega
  obtain ⟨quote, hquote, hnameText⟩ := hname.text
  have hlength := keyLength?_eq hkey hquote hgap.text (textOf (gap' ++ later) ++ after)
  rw [htake] at hlength
  rw [htext, hwhole, hnameText]
  exact hlength

end

end ObjectText
end PugSize
