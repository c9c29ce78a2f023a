import PugSize.Script.Tree
import PugSize.Proofs.Script.Legible

/-!
Lexemes arranged by their brackets. A node keeps white space and comments, so the nodes of a text
can be exchanged and written out again. Tokens have segments if and only if their lexemes are those
of some nodes, and the segments are the trees of the nodes at their offsets.
-/

namespace PugSize.Script

/-- Whether a lexeme is neither a bracket nor a comma. -/
def Lexeme.isPlain (l : Lexeme) : Bool :=
  match l.kind with
  | .trivia _ => true
  | .token kind => kind.opens? == none && kind.closes? == none && kind != .comma

namespace Bracket

def opening : Bracket → Lexeme
  | .round => ⟨.token .lparen, ['(']⟩
  | .square => ⟨.token .lbracket, ['[']⟩
  | .curly => ⟨.token .lbrace, ['{']⟩

def closing : Bracket → Lexeme
  | .round => ⟨.token .rparen, [')']⟩
  | .square => ⟨.token .rbracket, [']']⟩
  | .curly => ⟨.token .rbrace, ['}']⟩

@[simp] theorem opening_width (shape : Bracket) : shape.opening.text.width = 1 := by
  cases shape <;> rfl

@[simp] theorem closing_width (shape : Bracket) : shape.closing.text.width = 1 := by
  cases shape <;> rfl

end Bracket

def commaLexeme : Lexeme := ⟨.token .comma, [',']⟩

theorem Spelling.opening {kind : TokenKind} {t : Text} {shape : Bracket}
    (h : Spelling (.token kind) t) (hkind : kind.opens? = some shape) :
    (⟨.token kind, t⟩ : Lexeme) = shape.opening := by
  cases h with
  | quoted hquote hbody =>
      obtain ⟨-, rfl⟩ | ⟨-, rfl⟩ := quoteKind?_eq_some hquote <;> cases hkind
  | mark hmark =>
      have hmem := markKind?_eq_some hmark
      simp only [List.mem_cons, Prod.mk.injEq, List.not_mem_nil, or_false] at hmem
      obtain ⟨rfl, rfl⟩ | ⟨rfl, rfl⟩ | ⟨rfl, rfl⟩ | ⟨rfl, rfl⟩ | ⟨rfl, rfl⟩ | ⟨rfl, rfl⟩ | ⟨rfl, rfl⟩ |
        ⟨rfl, rfl⟩ := hmem <;> cases hkind <;> rfl
  | slash => cases hkind
  | word hword hne h =>
      simp only [List.mem_cons, List.not_mem_nil, or_false] at hword
      obtain rfl | rfl | rfl | rfl := hword <;> cases hkind

theorem Spelling.closing {kind : TokenKind} {t : Text} {shape : Bracket}
    (h : Spelling (.token kind) t) (hkind : kind.closes? = some shape) :
    (⟨.token kind, t⟩ : Lexeme) = shape.closing := by
  cases h with
  | quoted hquote hbody =>
      obtain ⟨-, rfl⟩ | ⟨-, rfl⟩ := quoteKind?_eq_some hquote <;> cases hkind
  | mark hmark =>
      have hmem := markKind?_eq_some hmark
      simp only [List.mem_cons, Prod.mk.injEq, List.not_mem_nil, or_false] at hmem
      obtain ⟨rfl, rfl⟩ | ⟨rfl, rfl⟩ | ⟨rfl, rfl⟩ | ⟨rfl, rfl⟩ | ⟨rfl, rfl⟩ | ⟨rfl, rfl⟩ | ⟨rfl, rfl⟩ |
        ⟨rfl, rfl⟩ := hmem <;> cases hkind <;> rfl
  | slash => cases hkind
  | word hword hne h =>
      simp only [List.mem_cons, List.not_mem_nil, or_false] at hword
      obtain rfl | rfl | rfl | rfl := hword <;> cases hkind

theorem Spelling.comma {t : Text} (h : Spelling (.token .comma) t) : t = [','] := by
  generalize hkind : TokenKind.comma = kind at h
  cases h with
  | quoted hquote hbody =>
      obtain ⟨-, rfl⟩ | ⟨-, rfl⟩ := quoteKind?_eq_some hquote <;> cases hkind
  | mark hmark =>
      have hmem := markKind?_eq_some hmark
      subst hkind
      simpa using hmem
  | slash => cases hkind
  | word hword hne h =>
      subst hkind
      simp at hword

/-- A lexeme by itself, a comma, or what stands between two brackets that belong together. -/
inductive Node
  | leaf (l : Lexeme) (plain : l.isPlain = true)
  | comma
  | group (shape : Bracket) (inside : List Node)

mutual

def Node.lexemes : Node → List Lexeme
  | .leaf l _ => [l]
  | .comma => [commaLexeme]
  | .group shape inside => shape.opening :: lexemesOf inside ++ [shape.closing]

def lexemesOf : List Node → List Lexeme
  | [] => []
  | n :: ns => n.lexemes ++ lexemesOf ns

end

@[simp] theorem lexemesOf_nil : lexemesOf [] = [] := rfl

@[simp] theorem lexemesOf_cons (n : Node) (ns : List Node) :
    lexemesOf (n :: ns) = n.lexemes ++ lexemesOf ns := rfl

@[simp] theorem lexemesOf_append (as bs : List Node) :
    lexemesOf (as ++ bs) = lexemesOf as ++ lexemesOf bs := by
  induction as with
  | nil => rfl
  | cons a as ih => simp [ih]

/-- The text that nodes make up. -/
def textOf (ns : List Node) : Text := written (lexemesOf ns)

@[simp] theorem textOf_nil : textOf [] = [] := rfl

theorem textOf_cons (n : Node) (ns : List Node) : textOf (n :: ns) = textOf [n] ++ textOf ns := by
  simp [textOf]

@[simp] theorem textOf_append (as bs : List Node) : textOf (as ++ bs) = textOf as ++ textOf bs := by
  simp [textOf]

@[simp] theorem textOf_leaf (l : Lexeme) (plain : l.isPlain = true) :
    textOf [.leaf l plain] = l.text := by
  simp [textOf, Node.lexemes]

@[simp] theorem textOf_comma : textOf [.comma] = [','] := rfl

@[simp] theorem textOf_group (shape : Bracket) (inside : List Node) :
    textOf [.group shape inside] = shape.opening.text ++ textOf inside ++ shape.closing.text := by
  simp [textOf, Node.lexemes]

def widthOf (ns : List Node) : Nat := (textOf ns).width

@[simp] theorem widthOf_nil : widthOf [] = 0 := rfl

theorem widthOf_cons (n : Node) (ns : List Node) : widthOf (n :: ns) = widthOf [n] + widthOf ns := by
  rw [widthOf, textOf_cons, Text.width_append, widthOf, widthOf]

@[simp] theorem widthOf_append (as bs : List Node) :
    widthOf (as ++ bs) = widthOf as + widthOf bs := by
  simp [widthOf]

@[simp] theorem widthOf_leaf (l : Lexeme) (plain : l.isPlain = true) :
    widthOf [.leaf l plain] = l.text.width := by
  rw [widthOf, textOf_leaf]

@[simp] theorem widthOf_comma : widthOf [.comma] = 1 := rfl

@[simp] theorem widthOf_group (shape : Bracket) (inside : List Node) :
    widthOf [.group shape inside] = widthOf inside + 2 := by
  simp only [widthOf, textOf_group, Text.width_append, Bracket.opening_width, Bracket.closing_width]
  omega

/-- A tree, if there is one, put in front of the first of some segments. -/
def consTree : Option Tree → List (List Tree) → List (List Tree)
  | some t, seg :: segs => (t :: seg) :: segs
  | some t, [] => [[t]]
  | none, segs => segs

mutual

/-- The tree of a node at an offset. White space and comments have none. -/
def Node.tree? (offset : Nat) : Node → Option Tree
  | .leaf l _ =>
    match l.kind with
    | .token kind => some (.leaf ⟨kind, l.text, offset⟩)
    | .trivia _ => none
  | .comma => none
  | .group shape inside =>
    some (.group shape ⟨offset, offset + (widthOf inside + 2)⟩ (place (offset + 1) inside))

/-- The trees of nodes at an offset, in the segments that the commas separate. -/
def place (offset : Nat) : List Node → List (List Tree)
  | [] => [[]]
  | .comma :: ns => [] :: place (offset + 1) ns
  | .leaf l plain :: ns =>
    consTree (Node.tree? offset (.leaf l plain)) (place (offset + l.text.width) ns)
  | .group shape inside :: ns =>
    consTree (Node.tree? offset (.group shape inside)) (place (offset + (widthOf inside + 2)) ns)

end

theorem consTree_ne_nil {t : Option Tree} {segs : List (List Tree)} (h : segs ≠ []) :
    consTree t segs ≠ [] := by
  cases t with
  | none => exact h
  | some t =>
      cases segs with
      | nil => exact absurd rfl h
      | cons seg segs => exact List.cons_ne_nil _ _

theorem place_ne_nil (offset : Nat) (ns : List Node) : place offset ns ≠ [] := by
  induction ns generalizing offset with
  | nil => exact List.cons_ne_nil _ _
  | cons n ns ih =>
      cases n with
      | leaf l plain => exact consTree_ne_nil (ih _)
      | comma => exact List.cons_ne_nil _ _
      | group shape inside => exact consTree_ne_nil (ih _)

namespace Level

/-- Trees read one after the other without a comma. -/
def pushAll (level : Level) (seg : List Tree) : Level :=
  ⟨level.segments, seg.reverse ++ level.current⟩

/-- Segments read one after the other. -/
def add (level : Level) : List (List Tree) → Level
  | [] => level
  | seg :: later => later.foldl (fun l s => l.comma.pushAll s) (level.pushAll seg)

theorem toSegments_foldl (level : Level) (later : List (List Tree)) :
    (later.foldl (fun l s => l.comma.pushAll s) level).toSegments = level.toSegments ++ later := by
  induction later generalizing level with
  | nil => simp
  | cons seg later ih =>
      rw [List.foldl_cons, ih]
      simp [toSegments, comma, pushAll]

theorem toSegments_start_add {segs : List (List Tree)} (h : segs ≠ []) :
    (start.add segs).toSegments = segs := by
  cases segs with
  | nil => exact absurd rfl h
  | cons seg later =>
      rw [add, toSegments_foldl]
      simp [toSegments, pushAll, start]

theorem add_nil (level : Level) : level.add [[]] = level := rfl

theorem add_comma (level : Level) {segs : List (List Tree)} (h : segs ≠ []) :
    level.add ([] :: segs) = level.comma.add segs := by
  cases segs with
  | nil => exact absurd rfl h
  | cons seg later => simp [add, pushAll]

theorem add_consTree_some (level : Level) (t : Tree) (segs : List (List Tree)) :
    level.add (consTree (some t) segs) = (level.push t).add segs := by
  cases segs with
  | nil => simp [consTree, add, pushAll, push]
  | cons seg later => simp [consTree, add, pushAll, push]

end Level

section Steps

variable (brackets : List OpenBracket) (level : Level) (offset : Nat) (ls : List Lexeme)

theorem segmentsFrom?_opening (shape : Bracket) :
    segmentsFrom? brackets level (Token.ofLexemes offset (shape.opening :: ls)) =
      segmentsFrom? (⟨shape, offset, level⟩ :: brackets) Level.start
        (Token.ofLexemes (offset + 1) ls) := by
  cases shape <;> rfl

theorem segmentsFrom?_closing (shape : Bracket) (start : Nat) (before : Level) :
    segmentsFrom? (⟨shape, start, before⟩ :: brackets) level
        (Token.ofLexemes offset (shape.closing :: ls)) =
      segmentsFrom? brackets (before.push (.group shape ⟨start, offset + 1⟩ level.toSegments))
        (Token.ofLexemes (offset + 1) ls) := by
  cases shape <;> rfl

theorem segmentsFrom?_comma :
    segmentsFrom? brackets level (Token.ofLexemes offset (commaLexeme :: ls)) =
      segmentsFrom? brackets level.comma (Token.ofLexemes (offset + 1) ls) := rfl

theorem segmentsFrom?_leaf {l : Lexeme} (plain : l.isPlain = true) :
    segmentsFrom? brackets level (Token.ofLexemes offset (l :: ls)) =
      segmentsFrom? brackets (level.add (consTree (Node.tree? offset (.leaf l plain)) [[]]))
        (Token.ofLexemes (offset + l.text.width) ls) := by
  obtain ⟨kind, text⟩ := l
  cases kind with
  | trivia kind => rfl
  | token kind => cases kind <;> first | rfl | cases plain

end Steps

/-- Reading the lexemes of nodes adds the trees of the nodes. -/
theorem segmentsFrom?_lexemesOf (brackets : List OpenBracket) (level : Level) (offset : Nat)
    (ls : List Lexeme) : (ns : List Node) →
    segmentsFrom? brackets level (Token.ofLexemes offset (lexemesOf ns ++ ls)) =
      segmentsFrom? brackets (level.add (place offset ns))
        (Token.ofLexemes (offset + widthOf ns) ls)
  | [] => by simp [place, Level.add, Level.pushAll]
  | .comma :: ns => by
      rw [lexemesOf_cons, Node.lexemes, List.append_assoc, List.singleton_append,
        segmentsFrom?_comma, segmentsFrom?_lexemesOf _ _ _ ls ns, place,
        Level.add_comma _ (place_ne_nil _ _), widthOf_cons, widthOf_comma, Nat.add_assoc]
  | .leaf l plain :: ns => by
      have hadd (t : Option Tree) (segs : List (List Tree)) :
          (level.add (consTree t [[]])).add segs = level.add (consTree t segs) := by
        cases t with
        | none => rfl
        | some t => rw [Level.add_consTree_some, Level.add_nil, Level.add_consTree_some]
      rw [lexemesOf_cons, Node.lexemes, List.append_assoc, List.singleton_append,
        segmentsFrom?_leaf _ _ _ _ plain, segmentsFrom?_lexemesOf _ _ _ ls ns, place,
        hadd, widthOf_cons, widthOf_leaf, Nat.add_assoc]
  | .group shape inside :: ns => by
      rw [lexemesOf_cons, Node.lexemes, List.append_assoc, List.append_assoc, List.cons_append,
        segmentsFrom?_opening, segmentsFrom?_lexemesOf _ _ _ _ inside, List.singleton_append,
        segmentsFrom?_closing, segmentsFrom?_lexemesOf _ _ _ ls ns,
        Level.toSegments_start_add (place_ne_nil _ _), place, Node.tree?, Level.add_consTree_some,
        widthOf_cons, widthOf_group]
      have hstop : offset + 1 + widthOf inside + 1 = offset + (widthOf inside + 2) := by omega
      rw [hstop, Nat.add_assoc]
  termination_by ns => sizeOf ns

/-- Whether the brackets and commas among lexemes are spelled as such. -/
def Spelled (ls : List Lexeme) : Prop :=
  ∀ l ∈ ls, ∀ kind, l.kind = .token kind → Spelling (.token kind) l.text

theorem Legible.spelled {ls : List Lexeme} {after : Text} (h : Legible ls after) : Spelled ls := by
  intro l hl kind hkind
  obtain ⟨rest, hstands⟩ := h.mem hl
  have := hstands.spelling (by rw [hkind]; exact nofun)
  rwa [hkind] at this

theorem Spelled.cases {l : Lexeme} {ls : List Lexeme} (h : Spelled (l :: ls)) :
    l.isPlain = true ∨ l = commaLexeme ∨ (∃ shape : Bracket, l = shape.opening) ∨
      ∃ shape : Bracket, l = shape.closing := by
  have hspelling := h l (List.mem_cons_self ..)
  obtain ⟨kind, text⟩ := l
  cases kind with
  | trivia kind => exact .inl rfl
  | token kind =>
      have hs := hspelling kind rfl
      cases hopens : kind.opens? with
      | some shape => exact .inr (.inr (.inl ⟨shape, hs.opening hopens⟩))
      | none =>
          cases hcloses : kind.closes? with
          | some shape => exact .inr (.inr (.inr ⟨shape, hs.closing hcloses⟩))
          | none =>
              by_cases hcomma : kind = .comma
              · subst hcomma
                obtain rfl : text = [','] := hs.comma
                exact .inr (.inl rfl)
              · refine .inl ?_
                simp [Lexeme.isPlain, hopens, hcloses, hcomma]

/-- Lexemes that are read to the end are those of nodes up to the bracket that closes the innermost
open one. -/
theorem exists_nodes {brackets : List OpenBracket} {level : Level} {offset : Nat}
    {ls : List Lexeme} {segs : List (List Tree)} (hspelled : Spelled ls)
    (h : segmentsFrom? brackets level (Token.ofLexemes offset ls) = some segs) :
    ∃ ns rest, ls = lexemesOf ns ++ rest ∧
      (brackets = [] ∧ rest = [] ∨
        ∃ o outer later, brackets = o :: outer ∧ rest = o.shape.closing :: later) := by
  generalize hn : ls.length = n
  induction n using Nat.strongRecOn generalizing brackets level offset ls with
  | ind n ih =>
    cases ls with
    | nil =>
        cases brackets with
        | nil => exact ⟨[], [], rfl, .inl ⟨rfl, rfl⟩⟩
        | cons o outer => cases h
    | cons l ls =>
        have htail : Spelled ls := fun m hm => hspelled m (List.mem_cons_of_mem _ hm)
        simp only [List.length_cons] at hn
        obtain hplain | rfl | ⟨shape, rfl⟩ | ⟨shape, rfl⟩ := hspelled.cases
        · rw [segmentsFrom?_leaf _ _ _ _ hplain] at h
          obtain ⟨ns, rest, rfl, hrest⟩ := ih _ (by omega) htail h rfl
          exact ⟨.leaf l hplain :: ns, rest, rfl, hrest⟩
        · rw [segmentsFrom?_comma] at h
          obtain ⟨ns, rest, rfl, hrest⟩ := ih _ (by omega) htail h rfl
          exact ⟨.comma :: ns, rest, rfl, hrest⟩
        · rw [segmentsFrom?_opening] at h
          obtain ⟨inside, rest, rfl, hrest⟩ := ih _ (by omega) htail h rfl
          obtain ⟨hnil, -⟩ | ⟨o, outer, later, hcons, rfl⟩ := hrest
          · cases hnil
          obtain ⟨rfl, rfl⟩ := List.cons.inj hcons
          rw [segmentsFrom?_lexemesOf, segmentsFrom?_closing] at h
          simp only [List.length_append, List.length_cons] at hn
          obtain ⟨ns, rest, rfl, hrest⟩ := ih _ (by omega)
            (fun m hm => htail m (List.mem_append_right _ (List.mem_cons_of_mem _ hm))) h rfl
          exact ⟨.group shape inside :: ns, rest, by simp [Node.lexemes], hrest⟩
        · cases brackets with
          | nil => cases shape <;> cases h
          | cons o outer =>
              obtain ⟨oshape, ostart, obefore⟩ := o
              have hshape : oshape = shape := by
                cases shape <;> cases oshape <;> first | rfl | cases h
              subst hshape
              exact ⟨[], _, rfl, .inr ⟨_, outer, ls, rfl, rfl⟩⟩

/-- The segments of lexemes are the trees of the nodes that the lexemes make up. -/
theorem segments?_eq_some {ls : List Lexeme} {offset : Nat} {segs : List (List Tree)}
    (hspelled : Spelled ls) :
    segments? (Token.ofLexemes offset ls) = some segs ↔
      ∃ ns, lexemesOf ns = ls ∧ place offset ns = segs := by
  have hrun (ns : List Node) :
      segments? (Token.ofLexemes offset (lexemesOf ns)) = some (place offset ns) := by
    have hstep := segmentsFrom?_lexemesOf [] Level.start offset [] ns
    rw [List.append_nil] at hstep
    rw [segments?, hstep]
    simp only [Token.ofLexemes, segmentsFrom?, List.isEmpty_nil, if_true]
    rw [Level.toSegments_start_add (place_ne_nil _ _)]
  constructor
  · intro h
    obtain ⟨ns, rest, rfl, ⟨-, rfl⟩ | ⟨o, outer, later, hcons, -⟩⟩ := exists_nodes hspelled h
    · rw [List.append_nil, hrun] at h
      exact ⟨ns, (List.append_nil _).symm, Option.some.inj h⟩
    · cases hcons
  · rintro ⟨ns, rfl, rfl⟩
    exact hrun ns

end PugSize.Script
