import PugSize.Proofs.Script.RowEdits

/-!
Arrays and objects among the rows of a text. Each is one bracket group, and what a group holds can be
exchanged for anything that is read: an argument list is read again with another first argument and as
many arguments behind it as before.
-/

namespace PugSize.Script

/-- Whether an expression is an array or an object. -/
def Expr.isBracketed : Expr → Bool
  | .array _ _ | .object _ _ => true
  | _ => false

/-- A row that is read as an array or an object is one bracket group. -/
theorem core_of_bracketed {r : Row} {spreads : Bool} {offset : Nat} {e : Expr}
    (h : segmentExpr? spreads (r.trees offset) = some e) (he : e.isBracketed = true) :
    ∃ shape inside, r.core = [.group shape inside] ∧
      Tree.expr? (.group shape
        ⟨offset + widthOf r.lead, offset + widthOf r.lead + (widthOf inside + 2)⟩
        (place (offset + widthOf r.lead + 1) inside)) = some e := by
  obtain ⟨n, hn, htrivia⟩ := r.solid.first
  obtain ⟨ns, hcore⟩ := List.head?_eq_some_iff.1 hn
  have hcomma := r.solid.uncut n (by rw [hcore]; exact List.mem_cons_self)
  rw [Row.trees, hcore, placeRow] at h
  cases n with
  | leaf l plain =>
      exfalso
      cases hkind : l.kind with
      | trivia kind => simp [Node.isTrivia, hkind] at htrivia
      | token kind =>
          rw [Node.tree?, hkind, Option.toList_some, List.singleton_append, segmentExpr?] at h
          split at h
          · obtain ⟨e', -, rfl⟩ := Option.map_eq_some_iff.1 h
            cases he
          · rw [Option.some.injEq, Expr.ofLeaf, Expr.ofToken] at h
            subst h
            revert he
            (repeat' split) <;> (intro he; cases he)
  | comma => cases hcomma
  | group shape inside =>
      rw [Node.tree?, Option.toList_some, List.singleton_append, segmentExpr?] at h
      obtain ⟨e', he', hresult⟩ := Option.map_eq_some_iff.1 h
      split at hresult
      · rename_i hempty
        subst hresult
        refine ⟨shape, inside, ?_, he'⟩
        have hsolid : Solid ([.group shape inside] ++ ns) := by
          rw [List.singleton_append, ← hcore]
          exact r.solid
        have hblank := blank_of_placeRow hsolid.uncut_behind (List.isEmpty_iff.1 hempty)
        rw [hcore, hsolid.eq_nil_of_blank hblank]
      · subst hresult
        cases he

theorem expr?_object {shape : Bracket} {span span' : Span} {segs : List (List Tree)}
    {props : List (Property Expr)} (h : Tree.expr? (.group shape span segs) = some (.object props span')) :
    shape = .curly ∧ span' = span ∧ properties? segs = some props := by
  cases shape with
  | round => cases h
  | square =>
      obtain ⟨es, -, heq⟩ := Option.map_eq_some_iff.1 h
      cases heq
  | curly =>
      obtain ⟨ps, hps, heq⟩ := Option.map_eq_some_iff.1 h
      cases heq
      exact ⟨rfl, rfl, hps⟩

theorem expr?_array {shape : Bracket} {span span' : Span} {segs : List (List Tree)}
    {elements : List Expr} (h : Tree.expr? (.group shape span segs) = some (.array elements span')) :
    shape = .square ∧ elements? segs = some elements := by
  cases shape with
  | round => cases h
  | square =>
      obtain ⟨es, hes, heq⟩ := Option.map_eq_some_iff.1 h
      cases heq
      exact ⟨rfl, hes⟩
  | curly =>
      obtain ⟨ps, -, heq⟩ := Option.map_eq_some_iff.1 h
      cases heq

/-- A row that is read as an object is one pair of braces. -/
theorem core_of_object {r : Row} {spreads : Bool} {offset : Nat} {props : List (Property Expr)}
    {span : Span} (h : segmentExpr? spreads (r.trees offset) = some (.object props span)) :
    ∃ inside, r.core = [.group .curly inside] ∧
      span = ⟨offset + widthOf r.lead, offset + widthOf r.lead + (widthOf inside + 2)⟩ ∧
      properties? (place (offset + widthOf r.lead + 1) inside) = some props := by
  obtain ⟨shape, inside, hcore, hexpr⟩ := core_of_bracketed h rfl
  obtain ⟨rfl, hspan, hprops⟩ := expr?_object hexpr
  exact ⟨inside, hcore, hspan, hprops⟩

theorem segmentExpr?_braces (spreads : Bool) (inside : List Node) (offset : Nat) :
    segmentExpr? spreads (placeRow offset [.group .curly inside]) =
      (properties? (place (offset + 1) inside)).map fun ps =>
        .object ps ⟨offset, offset + (widthOf inside + 2)⟩ := by
  rw [placeRow, placeRow, Node.tree?, Option.toList_some, List.append_nil, segmentExpr?, Tree.expr?,
    Option.map_map]
  rfl

theorem apart_opening (shape : Bracket) (after : Text) : Apart (shape.opening.text ++ after) := by
  cases shape <;> exact .cons (by decide)

theorem apart_closing (shape : Bracket) (after : Text) : Apart (shape.closing.text ++ after) := by
  cases shape <;> exact .cons (by decide)

theorem Bracket.stands_opening (shape : Bracket) (rest : Text) : shape.opening.Stands rest := by
  cases shape
  all_goals
    rw [Lexeme.stands_other (by decide)]
    exact firstLexeme?_mark (by rfl) _

theorem Bracket.stands_closing (shape : Bracket) (rest : Text) : shape.closing.Stands rest := by
  cases shape
  all_goals
    rw [Lexeme.stands_other (by decide)]
    exact firstLexeme?_mark (by rfl) _

/-- Lexemes in brackets are legible if they are legible before the closing bracket. -/
theorem legible_bracketed {shape : Bracket} {ls : List Lexeme} {after : Text} :
    Legible (shape.opening :: ls ++ [shape.closing]) after ↔ Legible ls shape.closing.text := by
  have hhead : (shape.closing.text ++ after).head? = shape.closing.text.head? := by cases shape <;> rfl
  rw [legible_append, written_cons, written_nil, List.append_nil]
  constructor
  · rintro ⟨⟨-, hinside⟩, -⟩
    have hapart := apart_closing shape []
    rw [List.append_nil] at hapart
    exact hinside.swap_head hapart hhead.symm
  · intro hinside
    exact ⟨⟨shape.stands_opening _, hinside.swap_head (apart_closing shape after) hhead⟩,
      shape.stands_closing _, trivial⟩

/-- A bracket group is legible if what it holds is legible before its closing bracket. -/
theorem legible_group {shape : Bracket} {inside : List Node} {after : Text} :
    Legible (Node.group shape inside).lexemes after ↔ Legible (lexemesOf inside) shape.closing.text :=
  legible_bracketed

/-- What a bracket group holds can be exchanged. -/
theorem Legible.exchange_group {pre post : List Node} {shape : Bracket} {inside inside' : List Node}
    {after : Text} (h : Legible (lexemesOf (pre ++ .group shape inside :: post)) after)
    (hinside : Legible (lexemesOf inside') shape.closing.text) :
    Legible (lexemesOf (pre ++ .group shape inside' :: post)) after := by
  have hhead (nodes : List Node) : (written (lexemesOf (.group shape nodes :: post)) ++ after).head? =
      shape.opening.text.head? := by
    cases shape <;> rfl
  rw [lexemesOf_append] at h ⊢
  obtain ⟨hpre, hrest⟩ := legible_append.1 h
  rw [lexemesOf_cons] at hrest
  refine legible_append.2 ⟨hpre.swap_head ?_ (by rw [hhead, hhead]), ?_⟩
  · rw [lexemesOf_cons, Node.lexemes, List.cons_append, List.cons_append, written_cons, List.append_assoc]
    exact apart_opening shape _
  · rw [lexemesOf_cons]
    exact legible_append.2 ⟨legible_group.2 hinside, (legible_append.1 hrest).2⟩

/-- An array or an object that is the first argument of a text stands in brackets there, and what stands
between them can be exchanged. -/
theorem exists_first {t : Text} {e : Expr} {args : List Expr} (h : arguments? t = some (e :: args))
    (he : e.isBracketed = true) :
    ∃ lead shape inside back, t = lead ++ textOf [.group shape inside] ++ back ∧
      Legible (lexemesOf inside) shape.closing.text ∧
      Tree.expr? (.group shape ⟨lead.width, lead.width + (widthOf inside + 2)⟩
        (place (lead.width + 1) inside)) = some e ∧
      ∀ inside' e', Legible (lexemesOf inside') shape.closing.text →
        Tree.expr? (.group shape ⟨lead.width, lead.width + (widthOf inside' + 2)⟩
          (place (lead.width + 1) inside')) = some e' →
        ∃ args', args'.length = args.length ∧
          arguments? (lead ++ textOf [.group shape inside'] ++ back) = some (e' :: args') := by
  obtain ⟨rows, rest, after, hlayout, hrows⟩ := arguments?_eq_some.1 h
  cases rows with
  | nil => cases hrows
  | cons r rows =>
      obtain ⟨e₀, hread, hlater⟩ := Option.bind_eq_some_iff.1 hrows
      obtain ⟨args₀, hargs, heq⟩ := Option.map_eq_some_iff.1 hlater
      obtain ⟨rfl, rfl⟩ := List.cons.inj heq
      obtain ⟨shape, inside, hcore, hexpr⟩ := core_of_bracketed hread he
      obtain ⟨tail, ht, rfl⟩ := hlayout.exists_tail
      have hnodes (core : List Node) (hsolid : Solid core) : rowNodes (r.withCore core hsolid :: rows) rest =
          r.lead ++ core ++ (r.trail ++ rowsBehind rows rest) := by
        rw [rowNodes_cons, List.append_assoc]
        rfl
      have hold : rowNodes (r :: rows) rest =
          r.lead ++ [.group shape inside] ++ (r.trail ++ rowsBehind rows rest) := by
        rw [rowNodes_cons, hcore, List.append_assoc]
      have hlegible := hlayout.legible
      rw [hold, List.append_assoc, List.singleton_append] at hlegible
      have hgroup := hlegible
      rw [lexemesOf_append, lexemesOf_cons] at hgroup
      rw [Nat.zero_add] at hexpr
      refine ⟨textOf r.lead, shape, inside, textOf (r.trail ++ rowsBehind rows rest) ++ tail, ?_,
        legible_group.1 (legible_append.1 (legible_append.1 hgroup).2).1, hexpr, ?_⟩
      · rw [ht, hold]
        simp only [textOf_append, List.append_assoc]
      · intro inside' e' hinside hexpr'
        have hsolid : Solid [Node.group shape inside'] := solid_singleton rfl rfl
        have hrows' : ∀ s ∈ rows, s.Reads (segmentExpr? false) :=
          (readRows_isSome (isSome_segmentExpr?_shift false) _ rows).1 ⟨_, hargs⟩
        obtain ⟨args', hargs'⟩ := (readRows_isSome (isSome_segmentExpr?_shift false)
          (0 + (r.withCore _ hsolid).width + 1) rows).2 hrows'
        refine ⟨args', by rw [length_readRows hargs', length_readRows hargs], ?_⟩
        refine arguments?_eq_some.2 ⟨r.withCore _ hsolid :: rows, rest, _, ⟨?_, hlayout.tail,
          hlayout.ending, ?_⟩, ?_⟩
        · rw [hnodes]
          simp only [textOf_append, List.append_assoc]
        · rw [hnodes, List.append_assoc, List.singleton_append]
          exact hlegible.exchange_group hinside
        · have hfirst : segmentExpr? false ((r.withCore _ hsolid).trees 0) = some e' := by
            rw [Row.trees, Row.withCore_lead, Row.withCore_core, Nat.zero_add, placeRow, placeRow,
              Node.tree?, Option.toList_some, List.append_nil, segmentExpr?]
            have hexpr'' : Tree.expr? (.group shape
                ⟨widthOf r.lead, widthOf r.lead + (widthOf inside' + 2)⟩
                (place (widthOf r.lead + 1) inside')) = some e' := hexpr'
            rw [hexpr'']
            rfl
          rw [readRows, hfirst, Option.bind_some, hargs', Option.map_some]

end PugSize.Script
