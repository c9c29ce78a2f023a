import PugSize.Mixin.Call
import PugSize.Text.Word
import PugSize.Proofs.Script.RowEdits

/-!
The end of a call, told from its arguments. The scanner for calls knows neither block comments nor
line ends behind a backslash, but apart from these it agrees with the lexemes of a script fragment on
which parentheses are code. So it passes over arguments that are laid out in nodes, and ends at the
parenthesis behind them.
-/

namespace PugSize.MixinCall

open Script

/-- Whether a lexeme is one that the scanner for calls takes for what it is. -/
structure Tame (l : Lexeme) : Prop where
  comment : l.kind ≠ .trivia .blockComment
  line : ¬ ['\\', '\n'] <:+: l.text

/-- Whether the characters of a lexeme are code to the scanner. -/
def lexemeFlags (l : Lexeme) : List Bool :=
  if l.kind = .token .str ∨ l.kind = .token .template ∨ l.kind = .trivia .lineComment then
    l.text.map fun _ => false
  else l.text.map (· != '\n')

theorem length_lexemeFlags (l : Lexeme) : (lexemeFlags l).length = l.text.length := by
  unfold lexemeFlags
  split <;> simp

theorem codeFlags_quoted {quote : Char} {body : Text} (h : QuotedBody quote body)
    (hquote : quote ≠ '\\' ∧ quote ≠ '\n') (hline : ¬ ['\\', '\n'] <:+: body) (rest : Text) :
    codeFlags (.quoted quote) (body ++ quote :: rest) =
      (body ++ [quote]).map (fun _ => false) ++ codeFlags .code rest := by
  induction h with
  | nil => simp [codeFlags, hquote]
  | @escape c body _ ih =>
      have hc : c ≠ '\n' := by
        rintro rfl
        exact hline ⟨[], body, rfl⟩
      have hbody := ih fun hwithin =>
        hline (hwithin.trans ((List.suffix_cons c body).isInfix.trans (List.suffix_cons _ _).isInfix))
      simp [codeFlags, hc, hbody]
  | @plain c body slash close newline _ ih =>
      have hbody := ih fun hwithin => hline (hwithin.trans (List.suffix_cons c body).isInfix)
      by_cases hc : c = '\n'
      · simp [codeFlags, hc, hbody]
      · simp [codeFlags, hc, slash, close, hbody]

theorem codeFlags_lineComment {body rest : Text} (h : '\n' ∉ body)
    (hrest : ∀ c, rest.head? = some c → c = '\n') :
    codeFlags .comment (body ++ rest) = body.map (fun _ => false) ++ codeFlags .code rest := by
  induction body with
  | nil =>
      cases rest with
      | nil => rfl
      | cons c cs =>
          obtain rfl := hrest c rfl
          rfl
  | cons c cs ih =>
      simp only [List.mem_cons, not_or] at h
      have hc : c ≠ '\n' := fun heq => h.1 heq.symm
      simp [codeFlags, hc, ih h.2]

/-- What is neutral to literals, comments and brackets is code. -/
theorem codeFlags_neutral {t : Text} (h : ∀ c ∈ t, isNeutral c = true) (rest : Text) :
    codeFlags .code (t ++ rest) = t.map (· != '\n') ++ codeFlags .code rest := by
  induction t with
  | nil => rfl
  | cons c cs ih =>
      have hc := h c List.mem_cons_self
      have hcs := ih fun d hd => h d (List.mem_cons_of_mem _ hd)
      simp only [isNeutral, Bool.not_eq_true', Bool.or_eq_false_iff, decide_eq_false_iff_not,
        List.mem_cons, List.not_mem_nil, or_false, not_or] at hc
      obtain ⟨⟨⟨⟨hquote, -⟩, -⟩, -⟩, hslash, -, -, hline⟩ := hc
      simp [codeFlags, hquote, hslash, hline, hcs]

theorem codeFlags_mark {c : Char} {kind : TokenKind} (h : markKind? c = some kind) (rest : Text) :
    codeFlags .code (c :: rest) = true :: codeFlags .code rest := by
  have hmem := markKind?_eq_some h
  simp only [List.mem_cons, Prod.mk.injEq, List.not_mem_nil, or_false] at hmem
  obtain ⟨rfl, -⟩ | ⟨rfl, -⟩ | ⟨rfl, -⟩ | ⟨rfl, -⟩ | ⟨rfl, -⟩ | ⟨rfl, -⟩ | ⟨rfl, -⟩ | ⟨rfl, -⟩ :=
    hmem <;> rfl

theorem codeFlags_blank {c : Char} (h : isSkipped c = true) (rest : Text) :
    codeFlags .code (c :: rest) = (c != '\n') :: codeFlags .code rest := by
  have hne : ∀ d, isSkipped d = false → c ≠ d := by
    rintro d hd rfl
    rw [h] at hd
    cases hd
  by_cases hc : c = '\n'
  · subst hc
    rfl
  · have hquote : CharClass.isQuote c = false := by
      simp [CharClass.isQuote, hne '"' (by decide), hne '\'' (by decide), hne '\x60' (by decide)]
    simp [codeFlags, hc, hquote, hne '/' (by decide)]

/-- The scanner passes over a lexeme and is in code behind it. -/
theorem codeFlags_lexeme {l : Lexeme} {rest : Text} (h : l.Stands rest) (htame : Tame l) :
    codeFlags .code (l.text ++ rest) = lexemeFlags l ++ codeFlags .code rest := by
  by_cases hblank : l.kind = .trivia .blank
  · obtain ⟨c, htext, hc⟩ := (Lexeme.stands_blank hblank).1 h
    simp [lexemeFlags, hblank, htext, codeFlags_blank hc]
  obtain ⟨hcomment, hline⟩ := htame
  have hspelling := h.spelling hblank
  have hlineComment := fun hkind => (h.lineComment hkind).2
  have hslash := fun kind (hkind : l.kind = .token kind) => h.slash hkind
  obtain ⟨kind, text⟩ := l
  simp only at hspelling hcomment hline hlineComment hslash ⊢
  cases hspelling with
  | lineComment hbody =>
      have := codeFlags_lineComment hbody (hlineComment rfl)
      simp [lexemeFlags, codeFlags, CharClass.isQuote, this]
  | blockComment hbody => exact absurd rfl hcomment
  | @quoted quote body kind hquote hbody =>
      have hflags (hne : quote ≠ '\\' ∧ quote ≠ '\n') := codeFlags_quoted hbody hne
        (fun hwithin => hline (hwithin.trans ⟨[quote], [quote], by simp⟩)) rest
      obtain ⟨rfl | rfl, rfl⟩ | ⟨rfl, rfl⟩ := quoteKind?_eq_some hquote
      all_goals
        have := hflags (by decide)
        simp [lexemeFlags, codeFlags, CharClass.isQuote, this]
  | @mark c kind hmark =>
      have hmem := markKind?_eq_some hmark
      simp only [List.mem_cons, Prod.mk.injEq, List.not_mem_nil, or_false] at hmem
      rw [List.singleton_append, codeFlags_mark hmark]
      obtain ⟨rfl, rfl⟩ | ⟨rfl, rfl⟩ | ⟨rfl, rfl⟩ | ⟨rfl, rfl⟩ | ⟨rfl, rfl⟩ | ⟨rfl, rfl⟩ |
        ⟨rfl, rfl⟩ | ⟨rfl, rfl⟩ := hmem <;> rfl
  | slash =>
      have hhead := hslash .punct rfl rfl
      simp [lexemeFlags, codeFlags, CharClass.isQuote, hhead]
  | word hword hne hneutral =>
      rw [codeFlags_neutral hneutral]
      simp only [List.mem_cons, List.not_mem_nil, or_false] at hword
      obtain rfl | rfl | rfl | rfl := hword <;> rfl

/-- Whether the characters of lexemes are code to the scanner. -/
def flagsOf (ls : List Lexeme) : List Bool := ls.flatMap lexemeFlags

theorem codeFlags_written {ls : List Lexeme} {after : Text} (h : Legible ls after)
    (htame : ∀ l ∈ ls, Tame l) :
    codeFlags .code (written ls ++ after) = flagsOf ls ++ codeFlags .code after := by
  induction ls with
  | nil => rfl
  | cons l ls ih =>
      have hls := ih h.2 fun m hm => htame m (List.mem_cons_of_mem _ hm)
      rw [written_cons, List.append_assoc, codeFlags_lexeme h.1 (htame l List.mem_cons_self), hls,
        flagsOf, flagsOf, List.flatMap_cons, List.append_assoc]

/-- Whether the parentheses in code are balanced: the search for a closing one passes over them. -/
def Balanced (marked : List (Char × Bool)) : Prop :=
  ∀ depth more, 0 < depth →
    closingEnd? depth (marked ++ more) = (closingEnd? depth more).map (· + marked.length)

theorem Balanced.nil : Balanced [] := by
  intro depth more _
  simp

theorem Balanced.append {as bs : List (Char × Bool)} (ha : Balanced as) (hb : Balanced bs) :
    Balanced (as ++ bs) := by
  intro depth more hdepth
  rw [List.append_assoc, ha depth _ hdepth, hb depth _ hdepth, Option.map_map, List.length_append]
  congr 1
  funext n
  simp only [Function.comp_apply]
  omega

theorem Balanced.cons {x : Char × Bool} {xs : List (Char × Bool)}
    (hx : x.2 = true → x.1 ≠ '(' ∧ x.1 ≠ ')') (hxs : Balanced xs) : Balanced (x :: xs) := by
  intro depth more hdepth
  obtain ⟨c, isCode⟩ := x
  have hopen : ¬ (c = '(' ∧ isCode = true) := fun h => (hx h.2).1 h.1
  have hclose : ¬ (c = ')' ∧ isCode = true) := fun h => (hx h.2).2 h.1
  rw [List.cons_append, closingEnd?, if_neg hopen, if_neg hclose, hxs depth more hdepth,
    Option.map_map]
  congr 1

theorem Balanced.group {xs : List (Char × Bool)} (h : Balanced xs) :
    Balanced (('(', true) :: xs ++ [(')', true)]) := by
  intro depth more hdepth
  have hstep : ¬ depth + 1 ≤ 1 := by omega
  rw [List.append_assoc, List.cons_append, closingEnd?, if_pos ⟨rfl, rfl⟩,
    h (depth + 1) _ (Nat.succ_pos _), List.singleton_append, closingEnd?, if_neg (by decide),
    if_pos ⟨rfl, rfl⟩, if_neg hstep, Nat.add_sub_cancel, Option.map_map, Option.map_map]
  congr 1
  funext n
  simp only [Function.comp_apply, List.length_append, List.length_cons, List.length_nil]
  omega

theorem balanced_quiet {marked : List (Char × Bool)}
    (h : ∀ x ∈ marked, x.2 = true → x.1 ≠ '(' ∧ x.1 ≠ ')') : Balanced marked := by
  induction marked with
  | nil => exact .nil
  | cons x xs ih =>
      exact .cons (h x List.mem_cons_self) (ih fun y hy => h y (List.mem_cons_of_mem _ hy))

/-- A lexeme that is no parenthesis holds none that is code. -/
theorem balanced_lexeme {l : Lexeme} {rest : Text} (h : l.Stands rest) (htame : Tame l)
    (hplain : l.isPlain = true) : Balanced (l.text.zip (lexemeFlags l)) := by
  apply balanced_quiet
  intro x hx hcode
  have hchar := (List.of_mem_zip hx).1
  have hflag := (List.of_mem_zip hx).2
  rw [hcode] at hflag
  by_cases hblank : l.kind = .trivia .blank
  · obtain ⟨c, htext, hc⟩ := (Lexeme.stands_blank hblank).1 h
    rw [htext, List.mem_singleton] at hchar
    rw [hchar]
    constructor
    · rintro rfl
      cases hc
    · rintro rfl
      cases hc
  have hspelling := h.spelling hblank
  have hcomment := htame.comment
  obtain ⟨kind, text⟩ := l
  simp only at hspelling hplain hchar hflag hcomment
  cases hspelling with
  | lineComment hbody => simp [lexemeFlags] at hflag
  | blockComment hbody => exact absurd rfl hcomment
  | quoted hquote hbody =>
      obtain ⟨-, rfl⟩ | ⟨-, rfl⟩ := quoteKind?_eq_some hquote <;> simp [lexemeFlags] at hflag
  | mark hmark =>
      have hmem := markKind?_eq_some hmark
      simp only [List.mem_cons, Prod.mk.injEq, List.not_mem_nil, or_false] at hmem
      rw [List.mem_singleton.1 hchar]
      obtain ⟨rfl, rfl⟩ | ⟨rfl, rfl⟩ | ⟨rfl, rfl⟩ | ⟨rfl, rfl⟩ | ⟨rfl, rfl⟩ | ⟨rfl, rfl⟩ |
        ⟨rfl, rfl⟩ | ⟨rfl, rfl⟩ := hmem <;> first | exact absurd hplain (by decide) | decide
  | slash =>
      rw [List.mem_singleton.1 hchar]
      decide
  | word hword hne hneutral =>
      have hc := hneutral _ hchar
      constructor
      · rintro heq
        rw [heq] at hc
        cases hc
      · rintro heq
        rw [heq] at hc
        cases hc

theorem length_flagsOf (ls : List Lexeme) : (flagsOf ls).length = (written ls).length := by
  induction ls with
  | nil => rfl
  | cons l ls ih =>
      rw [flagsOf, List.flatMap_cons, ← flagsOf, List.length_append, ih, length_lexemeFlags,
        written_cons, List.length_append]

theorem zip_flagsOf (as bs : List Lexeme) :
    (written (as ++ bs)).zip (flagsOf (as ++ bs)) =
      (written as).zip (flagsOf as) ++ (written bs).zip (flagsOf bs) := by
  rw [written_append, flagsOf, List.flatMap_append, ← flagsOf, ← flagsOf,
    List.zip_append (length_flagsOf as).symm]

/-- Nodes hold as many opening parentheses as closing ones, in order. -/
theorem balanced_nodes (after : Text) : (ns : List Node) → Legible (lexemesOf ns) after →
    (∀ l ∈ lexemesOf ns, Tame l) → Balanced ((textOf ns).zip (flagsOf (lexemesOf ns)))
  | [], _, _ => .nil
  | .leaf l plain :: ns, h, htame => by
      have hns := balanced_nodes after ns h.2 fun m hm => htame m (List.mem_cons_of_mem _ hm)
      have hl := balanced_lexeme h.1 (htame l List.mem_cons_self) plain
      rw [textOf, lexemesOf_cons, zip_flagsOf]
      refine Balanced.append ?_ hns
      simpa [Node.lexemes, flagsOf] using hl
  | .comma :: ns, h, htame => by
      have hns := balanced_nodes after ns h.2 fun m hm => htame m (List.mem_cons_of_mem _ hm)
      exact .cons (by decide) hns
  | .group shape inside :: ns, h, htame => by
      rw [lexemesOf_cons, Node.lexemes, List.append_assoc, List.cons_append] at h
      obtain ⟨hinside, hrest⟩ := legible_append.1 h.2
      have hin := balanced_nodes _ inside hinside fun m hm =>
        htame m (by simp [Node.lexemes, hm])
      have hns := balanced_nodes after ns hrest.2 fun m hm => htame m (by simp [hm])
      rw [textOf, lexemesOf_cons, zip_flagsOf]
      refine Balanced.append ?_ hns
      rw [Node.lexemes, zip_flagsOf, ← List.singleton_append, zip_flagsOf]
      cases shape with
      | round => exact .group hin
      | square => exact .append (.cons (by decide) hin) (.cons (by decide) .nil)
      | curly => exact .append (.cons (by decide) hin) (.cons (by decide) .nil)
  termination_by ns => sizeOf ns

/-- The search for the closing parenthesis ends behind the nodes. -/
theorem closingEnd?_nodes {ns : List Node} {after : Text}
    (h : Legible (lexemesOf ns) (')' :: after)) (htame : ∀ l ∈ lexemesOf ns, Tame l) :
    closingEnd? 1 ((textOf ns ++ ')' :: after).zip (codeFlags .code (textOf ns ++ ')' :: after))) =
      some ((textOf ns).length + 1) := by
  have hlength : (textOf ns).length = (flagsOf (lexemesOf ns)).length := (length_flagsOf _).symm
  have hflags : codeFlags .code (textOf ns ++ ')' :: after) =
      flagsOf (lexemesOf ns) ++ codeFlags .code (')' :: after) := codeFlags_written h htame
  have hclosing : codeFlags .code (')' :: after) = true :: codeFlags .code after :=
    codeFlags_mark (rfl : markKind? ')' = some .rparen) after
  rw [hflags, List.zip_append hlength, balanced_nodes _ ns h htame 1 _ Nat.one_pos, hclosing,
    List.zip_cons_cons, closingEnd?, if_neg (by decide), if_pos ⟨rfl, rfl⟩, if_pos (Nat.le_refl 1),
    Option.map_some, List.length_zip, ← hlength, Nat.min_self, Nat.add_comm]

/-- A character that means nothing to the scanner and is no part of a marker but its name. -/
def isNameChar (c : Char) : Bool :=
  !decide (c ∈ ['+', '(', ')', '"', '\'', '\x60', '/', '\n'])

theorem ne_of_isNameChar {c d : Char} (hc : isNameChar c = true) (hd : isNameChar d = false) :
    c ≠ d := by
  rintro rfl
  rw [hc] at hd
  cases hd

theorem codeFlags_name {name : Text} (h : ∀ c ∈ name, isNameChar c = true) (rest : Text) :
    codeFlags .code (name ++ rest) = name.map (fun _ => true) ++ codeFlags .code rest := by
  induction name with
  | nil => rfl
  | cons c cs ih =>
      have hc := h c List.mem_cons_self
      have hcs := ih fun d hd => h d (List.mem_cons_of_mem _ hd)
      have hquote : CharClass.isQuote c = false := by
        simp [CharClass.isQuote, ne_of_isNameChar hc (by decide : isNameChar '"' = false),
          ne_of_isNameChar hc (by decide : isNameChar '\'' = false),
          ne_of_isNameChar hc (by decide : isNameChar '\x60' = false)]
      have hslash := ne_of_isNameChar hc (by decide : isNameChar '/' = false)
      have hline := ne_of_isNameChar hc (by decide : isNameChar '\n' = false)
      simp [codeFlags, hquote, hslash, hline, hcs]

theorem codeFlags_marker {name : Text} (h : ∀ c ∈ name, isNameChar c = true) (rest : Text) :
    codeFlags .code (marker name ++ rest) =
      (marker name).map (fun _ => true) ++ codeFlags .code rest := by
  have hname := codeFlags_name h ('(' :: rest)
  have hopen : codeFlags .code ('(' :: rest) = true :: codeFlags .code rest :=
    codeFlags_mark (rfl : markKind? '(' = some .lparen) rest
  rw [marker, List.append_assoc, List.cons_append, List.singleton_append]
  have hplus : codeFlags .code ('+' :: (name ++ '(' :: rest)) =
      true :: codeFlags .code (name ++ '(' :: rest) := by
    simp [codeFlags, CharClass.isQuote]
  rw [hplus, hname, hopen]
  simp

theorem openingEnd?_marker {name : Text} (h : ∀ c ∈ name, isNameChar c = true)
    (more : List (Char × Bool)) :
    openingEnd? ((marker name).zip ((marker name).map fun _ => true) ++ more) =
      some (marker name).length := by
  have hname : openingEnd? ((name ++ ['(']).zip ((name ++ ['(']).map fun _ => true) ++ more) =
      some (name.length + 1) := by
    induction name with
    | nil => rfl
    | cons c cs ih =>
        have hc := ne_of_isNameChar (h c List.mem_cons_self) (by decide : isNameChar '(' = false)
        have hcs := ih fun d hd => h d (List.mem_cons_of_mem _ hd)
        rw [List.cons_append, List.map_cons, List.zip_cons_cons, List.cons_append, openingEnd?,
          if_neg (fun hopen => hc hopen.1), hcs]
        rfl
  rw [marker, List.cons_append, List.map_cons, List.zip_cons_cons, List.cons_append, openingEnd?,
    if_neg (by decide), hname]
  simp

/-- A call extends from its marker over what stands before the closing parenthesis. -/
theorem extent?_marker {name : Text} (h : ∀ c ∈ name, isNameChar c = true) (rest : Text) :
    extent? (marker name ++ rest) =
      (closingEnd? 1 (rest.zip (codeFlags .code rest))).map fun n =>
        (marker name, rest.take (n - 1)) := by
  have hzip : (marker name ++ rest).zip (codeFlags .code (marker name ++ rest)) =
      (marker name).zip ((marker name).map fun _ => true) ++ rest.zip (codeFlags .code rest) := by
    rw [codeFlags_marker h, List.zip_append (by simp)]
  have hdrop : ((marker name).zip ((marker name).map fun _ => true) ++
      rest.zip (codeFlags .code rest)).drop (marker name).length = rest.zip (codeFlags .code rest) :=
    List.drop_left' (by simp)
  simp only [extent?, hzip, openingEnd?_marker h, Option.bind_eq_bind, Option.bind_some, hdrop,
    List.take_left, List.drop_left]
  cases closingEnd? 1 (rest.zip (codeFlags .code rest)) <;> rfl

theorem extent?_nodes {name : Text} (hname : ∀ c ∈ name, isNameChar c = true) {ns : List Node}
    {after : Text} (h : Legible (lexemesOf ns) (')' :: after))
    (htame : ∀ l ∈ lexemesOf ns, Tame l) :
    extent? (marker name ++ (textOf ns ++ ')' :: after)) = some (marker name, textOf ns) := by
  rw [extent?_marker hname, closingEnd?_nodes h htame, Option.map_some, Nat.add_sub_cancel,
    List.take_left]

end PugSize.MixinCall
