import PugSize.Edit.CharClass
import PugSize.Proofs.Script.RowEdits

/-!
The classes of characters, told from nodes. The classifier of characters and the lexemes of a script
fragment agree: a literal and a comment are classified as a whole, and a bracket group lies one depth
further in than the brackets around it.
-/

namespace PugSize.CharClass

open Script

/-- The classes of the characters of a lexeme that stands at a bracket depth. -/
def ofLexeme (depth : Nat) (l : Lexeme) : List CharClass :=
  match l.kind with
  | .trivia .blank => l.text.map fun _ => code depth
  | .trivia _ => l.text.map fun _ => comment
  | .token .str => code depth :: List.replicate (l.text.length - 2) literal ++ [code depth]
  | .token .template => code depth :: List.replicate (l.text.length - 2) literal ++ [code depth]
  | .token _ => l.text.map fun _ => code depth

theorem ofTextFrom_quoted {quote : Char} {body : Text} (h : QuotedBody quote body)
    (hquote : quote ≠ '\\') (depth : Nat) (rest : Text) :
    ofTextFrom (.quoted quote) depth (body ++ quote :: rest) =
      body.map (fun _ => literal) ++ code depth :: ofTextFrom .code depth rest := by
  induction h with
  | nil => simp [ofTextFrom, hquote]
  | escape c _ ih => simp [ofTextFrom, ih]
  | plain slash close line _ ih => simp [ofTextFrom, slash, close, ih]

theorem ofTextFrom_lineComment {body rest : Text} (h : '\n' ∉ body)
    (hrest : ∀ c, rest.head? = some c → c = '\n') (depth : Nat) :
    ofTextFrom .lineComment depth (body ++ rest) =
      body.map (fun _ => comment) ++ ofTextFrom .code depth rest := by
  induction body with
  | nil =>
      cases rest with
      | nil => rfl
      | cons c cs =>
          obtain rfl := hrest c rfl
          rfl
  | cons c cs ih =>
      simp only [List.mem_cons, not_or] at h
      have hc : c ≠ '\n' := fun heq => h.1 heq.symm
      simp [ofTextFrom, hc, ih h.2]

theorem ofTextFrom_blockComment {body : Text} (h : BlockBody body) (depth : Nat) (rest : Text) :
    ofTextFrom .blockComment depth (body ++ '*' :: '/' :: rest) =
      body.map (fun _ => comment) ++ comment :: comment :: ofTextFrom .code depth rest := by
  induction h with
  | nil => simp [ofTextFrom]
  | @cons c body open_ _ ih =>
      have hopen : ¬ (c = '*' ∧ (body ++ '*' :: '/' :: rest).head? = some '/') := by
        rintro ⟨hc, hhead⟩
        cases body with
        | nil => cases hhead
        | cons d ds => exact open_ hc hhead
      rw [List.cons_append, ofTextFrom, if_neg hopen, ih]
      rfl

/-- What is neutral to literals, comments and brackets is code. -/
theorem ofTextFrom_neutral {t : Text} (h : ∀ c ∈ t, isNeutral c = true) (depth : Nat) (rest : Text) :
    ofTextFrom .code depth (t ++ rest) =
      t.map (fun _ => code depth) ++ ofTextFrom .code depth rest := by
  induction t with
  | nil => rfl
  | cons c cs ih =>
      have hc := h c List.mem_cons_self
      have hcs := ih fun d hd => h d (List.mem_cons_of_mem _ hd)
      simp only [isNeutral, Bool.not_eq_true', Bool.or_eq_false_iff, decide_eq_false_iff_not,
        List.mem_cons, List.not_mem_nil, or_false, not_or] at hc
      obtain ⟨⟨⟨⟨hquote, hopening⟩, hclosing⟩, -⟩, hslash, -⟩ := hc
      simp [ofTextFrom, hquote, hslash, hopening, hclosing, hcs]

theorem ofTextFrom_blank {c : Char} (h : isSkipped c = true) (depth : Nat) (rest : Text) :
    ofTextFrom .code depth (c :: rest) = code depth :: ofTextFrom .code depth rest := by
  have hne : ∀ d, isSkipped d = false → c ≠ d := by
    rintro d hd rfl
    rw [h] at hd
    cases hd
  have hquote : isQuote c = false := by
    simp [isQuote, hne '"' (by decide), hne '\'' (by decide), hne '\x60' (by decide)]
  have hopening : isOpening c = false := by
    simp [isOpening, hne '(' (by decide), hne '[' (by decide), hne '{' (by decide)]
  have hclosing : isClosing c = false := by
    simp [isClosing, hne ')' (by decide), hne ']' (by decide), hne '}' (by decide)]
  simp [ofTextFrom, hquote, hopening, hclosing, hne '/' (by decide)]

theorem ofTextFrom_opening (shape : Bracket) (depth : Nat) (rest : Text) :
    ofTextFrom .code depth (shape.opening.text ++ rest) =
      code depth :: ofTextFrom .code (depth + 1) rest := by
  cases shape <;> rfl

theorem ofTextFrom_closing (shape : Bracket) (depth : Nat) (rest : Text) :
    ofTextFrom .code (depth + 1) (shape.closing.text ++ rest) =
      code (depth + 1) :: ofTextFrom .code depth rest := by
  cases shape <;> rfl

/-- A lexeme that is no bracket is classified as a whole, and code follows it. -/
theorem ofTextFrom_lexeme {l : Lexeme} {rest : Text} (h : l.Stands rest) (hplain : l.isPlain = true)
    (depth : Nat) :
    ofTextFrom .code depth (l.text ++ rest) = ofLexeme depth l ++ ofTextFrom .code depth rest := by
  by_cases hblank : l.kind = .trivia .blank
  · obtain ⟨c, htext, hc⟩ := (Lexeme.stands_blank hblank).1 h
    simp [ofLexeme, hblank, htext, ofTextFrom_blank hc]
  have hspelling := h.spelling hblank
  have hlineComment := fun hkind => (h.lineComment hkind).2
  have hslash := fun kind (hkind : l.kind = .token kind) => h.slash hkind
  have hstar := fun kind (hkind : l.kind = .token kind) => h.star hkind
  obtain ⟨kind, text⟩ := l
  simp only at hspelling hplain hlineComment hslash hstar ⊢
  cases hspelling with
  | lineComment hbody =>
      have := ofTextFrom_lineComment hbody (hlineComment rfl) depth
      simp [ofLexeme, ofTextFrom, isQuote, this]
  | blockComment hbody =>
      have := ofTextFrom_blockComment hbody depth rest
      simp [ofLexeme, ofTextFrom, isQuote, this]
  | @quoted quote body kind hquote hbody =>
      obtain ⟨rfl | rfl, rfl⟩ | ⟨rfl, rfl⟩ := quoteKind?_eq_some hquote
      all_goals
        have := ofTextFrom_quoted hbody (by decide) depth rest
        simp [ofLexeme, ofTextFrom, isQuote, this]
  | @mark c kind hmark =>
      have hmem := markKind?_eq_some hmark
      simp only [List.mem_cons, Prod.mk.injEq, List.not_mem_nil, or_false] at hmem
      obtain ⟨rfl, rfl⟩ | ⟨rfl, rfl⟩ | ⟨rfl, rfl⟩ | ⟨rfl, rfl⟩ | ⟨rfl, rfl⟩ | ⟨rfl, rfl⟩ |
        ⟨rfl, rfl⟩ | ⟨rfl, rfl⟩ := hmem <;> first | exact absurd hplain (by decide) | rfl
  | slash =>
      have hnext := hslash .punct rfl rfl
      have hnext' := hstar .punct rfl rfl
      simp [ofLexeme, ofTextFrom, isQuote, isOpening, isClosing, hnext, hnext']
  | word hword hne hneutral =>
      rw [ofTextFrom_neutral hneutral]
      simp only [List.mem_cons, List.not_mem_nil, or_false] at hword
      obtain rfl | rfl | rfl | rfl := hword <;> rfl

theorem length_ofLexeme {l : Lexeme} {rest : Text} (h : l.Stands rest) (depth : Nat) :
    (ofLexeme depth l).length = l.text.length := by
  by_cases hblank : l.kind = .trivia .blank
  · simp [ofLexeme, hblank]
  have hspelling := h.spelling hblank
  obtain ⟨kind, text⟩ := l
  simp only at hspelling ⊢
  cases hspelling with
  | lineComment hbody => simp [ofLexeme]
  | blockComment hbody => simp [ofLexeme]
  | @quoted quote body kind hquote hbody =>
      obtain ⟨-, rfl⟩ | ⟨-, rfl⟩ := quoteKind?_eq_some hquote <;> simp [ofLexeme]
  | @mark c kind hmark =>
      have hmem := markKind?_eq_some hmark
      simp only [List.mem_cons, Prod.mk.injEq, List.not_mem_nil, or_false] at hmem
      obtain ⟨rfl, rfl⟩ | ⟨rfl, rfl⟩ | ⟨rfl, rfl⟩ | ⟨rfl, rfl⟩ | ⟨rfl, rfl⟩ | ⟨rfl, rfl⟩ |
        ⟨rfl, rfl⟩ | ⟨rfl, rfl⟩ := hmem <;> rfl
  | slash => rfl
  | word hword hne hneutral =>
      simp only [List.mem_cons, List.not_mem_nil, or_false] at hword
      obtain rfl | rfl | rfl | rfl := hword <;> simp [ofLexeme]

mutual

/-- The characters of a node that stands at a bracket depth, with their classes. -/
def nodeMarks (depth : Nat) : Node → List (Char × CharClass)
  | .leaf l _ => l.text.zip (ofLexeme depth l)
  | .comma => [(',', code depth)]
  | .group shape inside =>
    shape.opening.text.zip [code depth] ++ marksOf (depth + 1) inside ++
      shape.closing.text.zip [code (depth + 1)]

def marksOf (depth : Nat) : List Node → List (Char × CharClass)
  | [] => []
  | n :: ns => nodeMarks depth n ++ marksOf depth ns

end

@[simp] theorem marksOf_append (depth : Nat) (as bs : List Node) :
    marksOf depth (as ++ bs) = marksOf depth as ++ marksOf depth bs := by
  induction as with
  | nil => rfl
  | cons a as ih => simp [marksOf, ih]

/-- The characters of a text that begins as code at a depth, with their classes. -/
def marked (depth : Nat) (t : Text) : List (Char × CharClass) := t.zip (ofTextFrom .code depth t)

theorem marked_append {as bs : Text} {ks : List CharClass} {depth depth' : Nat}
    (h : ofTextFrom .code depth (as ++ bs) = ks ++ ofTextFrom .code depth' bs)
    (hlength : as.length = ks.length) :
    marked depth (as ++ bs) = as.zip ks ++ marked depth' bs := by
  rw [marked, h, List.zip_append hlength, marked]

theorem marked_nodes (after : Text) : (ns : List Node) → (depth : Nat) →
    Legible (lexemesOf ns) after →
    marked depth (textOf ns ++ after) = marksOf depth ns ++ marked depth after
  | [], depth, _ => rfl
  | .leaf l plain :: ns, depth, h => by
      have hns := marked_nodes after ns depth h.2
      have hl := marked_append (ofTextFrom_lexeme h.1 plain depth) (length_ofLexeme h.1 depth).symm
      rw [textOf_cons, textOf_leaf, List.append_assoc, marksOf, nodeMarks, List.append_assoc, ← hns]
      exact hl
  | .comma :: ns, depth, h => by
      have hns := marked_nodes after ns depth h.2
      rw [textOf_comma_cons, marksOf, nodeMarks, List.append_assoc, ← hns]
      rfl
  | .group shape inside :: ns, depth, h => by
      rw [lexemesOf_cons, Node.lexemes, List.append_assoc, List.cons_append] at h
      obtain ⟨hinside, hrest⟩ := legible_append.1 h.2
      have hns := marked_nodes after ns depth hrest.2
      have hlast := @marked_append shape.closing.text (textOf ns ++ after) [code (depth + 1)] _ _
        (ofTextFrom_closing shape depth _) (by cases shape <;> rfl)
      have hin := marked_nodes (shape.closing.text ++ (textOf ns ++ after)) inside (depth + 1) (by
        rw [List.singleton_append, written_cons, List.append_assoc] at hinside
        exact hinside)
      have hfirst := @marked_append shape.opening.text
        (textOf inside ++ (shape.closing.text ++ (textOf ns ++ after))) [code depth] _ _
        (ofTextFrom_opening shape depth _) (by cases shape <;> rfl)
      have htext : textOf (.group shape inside :: ns) ++ after = shape.opening.text ++
          (textOf inside ++ (shape.closing.text ++ (textOf ns ++ after))) := by
        rw [textOf_cons, textOf_group]
        simp
      rw [htext, hfirst, hin, hlast, hns, marksOf, nodeMarks]
      simp
  termination_by ns => sizeOf ns

theorem fst_marksOf {ns : List Node} {after : Text} (h : Legible (lexemesOf ns) after) (depth : Nat) :
    (marksOf depth ns).map Prod.fst = textOf ns := by
  have hwhole := congrArg (List.map Prod.fst) (marked_nodes after ns depth h)
  have hfst (t : Text) : (marked depth t).map Prod.fst = t :=
    List.map_fst_zip (Nat.le_of_eq (length_ofTextFrom t _ _).symm)
  rw [List.map_append, hfst, hfst] at hwhole
  exact (List.append_cancel_right hwhole).symm

theorem mem_ofLexeme {depth : Nat} {l : Lexeme} {k : CharClass} (h : k ∈ ofLexeme depth l) :
    k = code depth ∨ k = literal ∨ k = comment := by
  obtain ⟨kind, text⟩ := l
  have hcode (h : k ∈ text.map fun _ => code depth) : k = code depth := by
    obtain ⟨c, -, rfl⟩ := List.mem_map.1 h
    rfl
  have hcomment (h : k ∈ text.map fun _ => comment) : k = comment := by
    obtain ⟨c, -, rfl⟩ := List.mem_map.1 h
    rfl
  have hquoted (h : k ∈ code depth :: List.replicate (text.length - 2) literal ++ [code depth]) :
      k = code depth ∨ k = literal := by
    simp only [List.mem_append, List.mem_cons, List.not_mem_nil, or_false, List.mem_replicate] at h
    obtain (h | h) | h := h
    · exact .inl h
    · exact .inr h.2
    · exact .inl h
  cases kind with
  | trivia kind =>
      cases kind with
      | blank => exact .inl (hcode h)
      | lineComment => exact .inr (.inr (hcomment h))
      | blockComment => exact .inr (.inr (hcomment h))
  | token kind =>
      cases kind
      case str => exact (hquoted h).imp_right .inl
      case template => exact (hquoted h).imp_right .inl
      all_goals exact .inl (hcode h)

/-- What is code in a token that is no bracket and no comma. -/
theorem code_of_token {l : Lexeme} {rest : Text} (h : l.Stands rest) (hplain : l.isPlain = true)
    {kind : TokenKind} (hkind : l.kind = .token kind) {depth k : Nat} {c : Char}
    (hmem : (c, code k) ∈ l.text.zip (ofLexeme depth l)) :
    c ∉ [',', '(', ')', '[', ']', '{', '}', '\n'] := by
  have hchar := (List.of_mem_zip hmem).1
  have hspelling := h.spelling (by rw [hkind]; exact nofun)
  obtain ⟨found, text⟩ := l
  simp only at hkind hspelling hplain hchar hmem
  subst hkind
  cases hspelling with
  | @quoted quote body kind hquote hbody =>
      have hquoted : (c, code k) ∈ (quote :: body ++ [quote]).zip
          (code depth :: List.replicate body.length literal ++ [code depth]) → c = quote := by
        rw [List.cons_append, List.cons_append, List.zip_cons_cons, List.zip_append (by simp)]
        intro h
        simp only [List.zip_cons_cons, List.zip_nil_right, List.mem_cons, List.mem_append,
          List.not_mem_nil, or_false, Prod.mk.injEq] at h
        obtain h | h | h := h
        · exact h.1
        · have := List.eq_of_mem_replicate (List.of_mem_zip h).2
          cases this
        · exact h.1
      obtain ⟨rfl | rfl, rfl⟩ | ⟨rfl, rfl⟩ := quoteKind?_eq_some hquote
      all_goals
        rw [hquoted (by simpa [ofLexeme] using hmem)]
        decide
  | @mark d kind hmark =>
      have hmem := markKind?_eq_some hmark
      simp only [List.mem_cons, Prod.mk.injEq, List.not_mem_nil, or_false] at hmem
      rw [List.mem_singleton.1 hchar]
      obtain ⟨rfl, rfl⟩ | ⟨rfl, rfl⟩ | ⟨rfl, rfl⟩ | ⟨rfl, rfl⟩ | ⟨rfl, rfl⟩ | ⟨rfl, rfl⟩ |
        ⟨rfl, rfl⟩ | ⟨rfl, rfl⟩ := hmem <;> first | exact absurd hplain (by decide) | decide
  | slash =>
      rw [List.mem_singleton.1 hchar]
      decide
  | word hword hne hneutral =>
      have hc := hneutral c hchar
      intro hmem
      have hnone : [',', '(', ')', '[', ']', '{', '}', '\n'].any isNeutral = false := by decide
      exact List.any_eq_false.1 hnone c hmem hc

/-- What is code in a lexeme that is no bracket is no comma and no bracket. -/
theorem code_of_leaf {l : Lexeme} {rest : Text} (h : l.Stands rest) (hplain : l.isPlain = true)
    {depth k : Nat} {c : Char} (hmem : (c, code k) ∈ l.text.zip (ofLexeme depth l)) :
    c ∉ [',', '(', ')', '[', ']', '{', '}'] := by
  cases hkind : l.kind with
  | token kind =>
      intro hc
      refine code_of_token h hplain hkind hmem ?_
      simp only [List.mem_cons, List.not_mem_nil, or_false] at hc ⊢
      tauto
  | trivia kind =>
      have hchar := (List.of_mem_zip hmem).1
      have hclass := (List.of_mem_zip hmem).2
      cases kind with
      | blank =>
          obtain ⟨d, htext, hd⟩ := (Lexeme.stands_blank hkind).1 h
          rw [htext, List.mem_singleton] at hchar
          have hnone : [',', '(', ')', '[', ']', '{', '}'].any isSkipped = false := by decide
          intro hmem
          rw [← hchar] at hd
          exact List.any_eq_false.1 hnone c hmem hd
      | lineComment =>
          rw [ofLexeme, hkind] at hclass
          obtain ⟨-, -, hc⟩ := List.mem_map.1 hclass
          cases hc
      | blockComment =>
          rw [ofLexeme, hkind] at hclass
          obtain ⟨-, -, hc⟩ := List.mem_map.1 hclass
          cases hc

/-- Whether a character that is code lies at a depth, and further in if it is a comma. -/
def Inner (depth : Nat) (x : Char × CharClass) : Prop :=
  ∀ k, x.2 = code k → depth ≤ k ∧ (x.1 = ',' → depth < k)

theorem le_of_mem_marks (after : Text) : (ns : List Node) → (depth : Nat) →
    Legible (lexemesOf ns) after → ∀ x ∈ marksOf depth ns, ∀ k, x.2 = code k → depth ≤ k
  | [], _, _, _, hx, _, _ => absurd hx List.not_mem_nil
  | .leaf l plain :: ns, depth, h, x, hx, k, hk => by
      obtain hx | hx := List.mem_append.1 hx
      · have hclass := mem_ofLexeme (List.of_mem_zip hx).2
        rw [hk] at hclass
        obtain hclass | hclass | hclass := hclass <;> cases hclass
        exact Nat.le_refl _
      · exact le_of_mem_marks after ns depth h.2 x hx k hk
  | .comma :: ns, depth, h, x, hx, k, hk => by
      obtain hx | hx := List.mem_append.1 hx
      · rw [List.mem_singleton.1 hx] at hk
        cases hk
        exact Nat.le_refl _
      · exact le_of_mem_marks after ns depth h.2 x hx k hk
  | .group shape inside :: ns, depth, h, x, hx, k, hk => by
      rw [lexemesOf_cons, Node.lexemes, List.append_assoc, List.cons_append] at h
      obtain ⟨hinside, hrest⟩ := legible_append.1 h.2
      have hin := le_of_mem_marks _ inside (depth + 1) hinside x
      have hns := le_of_mem_marks after ns depth hrest.2 x
      have hopening : x ∈ shape.opening.text.zip [code depth] → depth ≤ k := by
        intro hx
        have := List.mem_singleton.1 (List.of_mem_zip hx).2
        rw [hk] at this
        cases this
        exact Nat.le_refl _
      have hclosing : x ∈ shape.closing.text.zip [code (depth + 1)] → depth ≤ k := by
        intro hx
        have := List.mem_singleton.1 (List.of_mem_zip hx).2
        rw [hk] at this
        cases this
        exact Nat.le_succ _
      rw [marksOf, nodeMarks] at hx
      obtain hx | hx := List.mem_append.1 hx
      · obtain hx | hx := List.mem_append.1 hx
        · obtain hx | hx := List.mem_append.1 hx
          · exact hopening hx
          · exact Nat.le_of_succ_le (hin hx k hk)
        · exact hclosing hx
      · exact hns hx k hk
  termination_by ns => sizeOf ns

/-- Nodes without a comma among them have commas inside brackets only. -/
theorem inner_of_uncut {ns : List Node} {after : Text} (h : Legible (lexemesOf ns) after)
    (huncut : Uncut ns) (depth : Nat) : ∀ x ∈ marksOf depth ns, Inner depth x := by
  induction ns with
  | nil => exact nofun
  | cons n ns ih =>
      rw [lexemesOf_cons] at h
      obtain ⟨hn, hns⟩ := legible_append.1 h
      have hlater := ih hns fun m hm => huncut m (List.mem_cons_of_mem _ hm)
      intro x hx
      rw [marksOf] at hx
      obtain hx | hx := List.mem_append.1 hx
      · intro k hk
        have hone : x ∈ marksOf depth [n] := by rw [marksOf]; exact List.mem_append_left _ hx
        have hle := le_of_mem_marks _ [n] depth (by simpa using hn) x hone k hk
        refine ⟨hle, fun hcomma => ?_⟩
        obtain ⟨c, found⟩ := x
        simp only at hk hcomma
        subst hk hcomma
        cases n with
        | leaf l plain => exact absurd (by simp) (code_of_leaf hn.1 plain hx)
        | comma => exact absurd (huncut _ List.mem_cons_self) (by decide)
        | group shape inside =>
            rw [Node.lexemes, List.cons_append] at hn
            have hinside := (legible_append.1 hn.2).1
            rw [nodeMarks] at hx
            obtain hx | hx := List.mem_append.1 hx
            · obtain hx | hx := List.mem_append.1 hx
              · have := (List.of_mem_zip hx).1
                cases shape <;> exact absurd this (by decide)
              · exact le_of_mem_marks _ inside (depth + 1) hinside _ hx k rfl
            · have := (List.of_mem_zip hx).1
              cases shape <;> exact absurd this (by decide)
      · exact hlater x hx

theorem marks_of_blank {ns : List Node} {after : Text} (h : Legible (lexemesOf ns) after)
    (hblank : Blank ns) (depth : Nat) :
    ∀ x ∈ marksOf depth ns, x.2 = comment ∨ (x.2 = code depth ∧ isSkipped x.1 = true) := by
  induction ns with
  | nil => exact nofun
  | cons n ns ih =>
      intro x hx
      have hn := hblank n List.mem_cons_self
      rw [marksOf] at hx
      obtain hx | hx := List.mem_append.1 hx
      · cases n with
        | leaf l plain =>
            have hchar := (List.of_mem_zip hx).1
            have hclass := (List.of_mem_zip hx).2
            by_cases hkind : l.kind = .trivia .blank
            · obtain ⟨c, htext, hc⟩ := (Lexeme.stands_blank hkind).1 h.1
              rw [htext, List.mem_singleton] at hchar
              rw [ofLexeme, hkind, htext] at hclass
              exact .inr ⟨List.mem_singleton.1 hclass, by rw [hchar]; exact hc⟩
            · refine .inl ?_
              simp only [Node.isTrivia] at hn
              split at hn
              · rename_i kind hk
                cases kind
                · exact absurd hk hkind
                · rw [ofLexeme, hk] at hclass
                  obtain ⟨-, -, hc⟩ := List.mem_map.1 hclass
                  exact hc.symm
                · rw [ofLexeme, hk] at hclass
                  obtain ⟨-, -, hc⟩ := List.mem_map.1 hclass
                  exact hc.symm
              · cases hn
        | comma => cases hn
        | group shape inside => cases hn
      · rw [lexemesOf_cons] at h
        exact ih (legible_append.1 h).2 (fun m hm => hblank m (List.mem_cons_of_mem _ hm)) x hx

end PugSize.CharClass
