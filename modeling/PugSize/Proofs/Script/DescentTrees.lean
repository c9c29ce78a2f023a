import PugSize.Proofs.Script.DescentItems

/-!
The descent gives what is read of trees. Over the tokens of a segment, up to a delimiter, each of its steps
gives what the reading of the trees gives, and stands behind the tokens.
-/

namespace PugSize.Script

namespace CallTokens

open Descent

variable {c : CallTokens} {p q : Nat} {t : Token} {ts more : List Token} {tree : Tree} {trees : List Tree}
  {segs : List (List Tree)}

namespace ReadsAs

/-- Where a delimiter stands nothing is read. -/
theorem nil (c : CallTokens) : c.ReadsAs [] [] := by
  have hdelimiter : ∀ p, c.Stands p [] → c.delimitedAt p = true :=
    fun p h => h.delimiter
  have hnot : ∀ p, c.Stands p [] → ∀ kind : TokenKind, kind.delimits = false →
      c.tokens[p]?.map Token.kind ≠ some kind := by
    intro p h kind hkind heq
    obtain ⟨t, ht, rfl⟩ := Option.map_eq_some_iff.1 heq
    have := hdelimiter p h
    rw [delimitedAt_token ht, hkind] at this
    cases this
  refine ⟨fun p h => outcome_expr_none (hdelimiter p h), fun p h => ?_, fun key p h => ?_, fun p h => ?_⟩
  · rw [outcome_element_expr fun t ht hkind => hnot p h .spread rfl (by rw [ht, Option.map_some, hkind]),
      outcome_expr_none (hdelimiter p h)]
    rfl
  · rw [propertyValue, run_eq, step, outcome_bind, outcome_accept_other (hnot p h .colon rfl), andThen_some,
      if_neg (by decide), outcome_bind, outcome_atDelimiter, hdelimiter p h, andThen_some, if_pos rfl]
    by_cases hident : key.kind = .ident
    · have hident' : (key.shift c.base).kind = .ident := hident
      rw [if_pos hident', outcome_bind, outcome_span_token, andThen_some, outcome_pure, valueBehind?,
        if_pos hident]
      rfl
    · have hident' : ¬ (key.shift c.base).kind = .ident := hident
      rw [if_neg hident', outcome_failure, valueBehind?, if_neg hident]
      rfl
  · rw [outcome_property_none (hdelimiter p h)]
    rfl

end ReadsAs

theorem ofLeaf_eq_other (h : Expr.ofToken t = .other t.span ∨ trees ≠ []) :
    Expr.ofLeaf t trees = .other ⟨t.start, (Tree.leaf t).lastStop trees⟩ := by
  cases trees with
  | nil =>
      rw [Expr.ofLeaf, if_pos (by rfl), h.resolve_right (· rfl)]
      rfl
  | cons tree trees => rw [Expr.ofLeaf, if_neg (by simp)]

/-- A token that is no bracket is a literal, or what it begins is known by its span only. -/
theorem outcome_literal?_leaf (hopens : t.kind.opens? = none) (ht : c.tokens[p]? = some (t.shift c.base)) :
    (c.literal? (t.shift c.base)).outcome p = found (some (some (Expr.ofToken t), p + 1)) ∨
      Expr.ofToken t = .other t.span ∧ ∃ q, (q = p ∨ q = p + 1) ∧
        (c.literal? (t.shift c.base)).outcome p = found (some (none, q)) := by
  rw [literal?, run_eq, step]
  split
  · rename_i hkind
    left
    rw [outcome_bind, outcome_bump ht, andThen_some, outcome_bind, outcome_span_token, andThen_some,
      outcome_pure, Expr.ofToken, show t.kind = .str from hkind]
    rfl
  · rename_i hkind
    left
    rw [outcome_bind, outcome_bump ht, andThen_some, outcome_bind, outcome_span_token, andThen_some,
      outcome_pure, Expr.ofToken, show t.kind = .number from hkind]
  · rename_i hkind
    have hident : t.kind = .ident := hkind
    rw [outcome_bind, outcome_bump ht, andThen_some]
    split
    · rename_i hword
      left
      have hword' : t.text ∈ Expr.keywords := List.contains_iff_mem.1 hword
      rw [outcome_bind, outcome_span_token, andThen_some, outcome_pure]
      simp only [Expr.ofToken, hident, hword', if_true]
      rfl
    · rename_i hword
      have hword' : t.text ∉ Expr.keywords := fun hmem => hword (List.contains_iff_mem.2 hmem)
      exact .inr ⟨by simp only [Expr.ofToken, hident, hword', if_false], p + 1, .inr rfl, outcome_pure _ _⟩
  · rename_i hkind
    exact absurd hkind (TokenKind.ne_of_opens? rfl hopens).symm
  · rename_i hkind
    exact absurd hkind (TokenKind.ne_of_opens? rfl hopens).symm
  · rename_i hstr hnumber hident _ _
    refine .inr ⟨?_, p, .inl rfl, outcome_pure _ _⟩
    unfold Expr.ofToken
    split
    · rename_i hkind
      exact absurd hkind hstr
    · rename_i hkind
      exact absurd hkind hnumber
    · rename_i hkind
      exact absurd hkind hident
    · rfl

section

variable (hc : c.InOrder) (hopens : t.kind.opens? = none) (hdelimits : t.kind.delimits = false)
  (later : Segment ts trees) (hstands : c.Stands p (t :: ts))
include hc hopens hdelimits later hstands

theorem outcome_expr_leaf :
    c.expr.outcome p = found (some (Expr.ofLeaf t trees, p + (t :: ts).length)) := by
  have hsegment := Segment.leaf hopens hdelimits later
  obtain ⟨more, hat, -⟩ := id hstands
  have hskipped : Expr.ofToken t = .other t.span ∨ trees ≠ [] → ∀ q, q = p ∨ q = p + 1 →
      (c.skippedFrom (t.shift c.base).start).outcome q =
        found (some (Expr.ofLeaf t trees, p + (t :: ts).length)) := by
    intro h q hq
    rw [ofLeaf_eq_other h]
    refine outcome_skippedFrom_segment hc hsegment hstands rfl ?_
    obtain rfl | rfl := hq
    · exact outcome_skip_segment [] hsegment hat
    · rw [outcome_skip_segment [] later hat.tail, behind_leaf]
  obtain hliteral | ⟨hother, q, hq, hliteral⟩ := outcome_literal?_leaf hopens hstands.head
  · cases trees with
    | nil =>
        obtain rfl := later.eq_nil
        exact outcome_expr_literal hstands.head hliteral hstands.tail.delimiter
    | cons tree trees =>
        rw [outcome_expr_skipped hstands.head hliteral (.inl (hstands.tail.not_delimiter later))]
        exact hskipped (.inr (List.cons_ne_nil _ _)) _ (.inr rfl)
  · rw [outcome_expr_skipped hstands.head hliteral ?_]
    · exact hskipped (.inl hother) q hq
    · obtain rfl | rfl := hq
      · exact .inl (hstands.not_delimiter hsegment)
      · exact .inr ⟨rfl, Nat.succ_ne_self p⟩

theorem outcome_spanFrom_leaf : (c.spanFrom (t.shift c.base).start).outcome (p + (t :: ts).length) =
    found (some (⟨t.start, (Tree.leaf t).lastStop trees⟩, p + (t :: ts).length)) := by
  obtain ⟨more, hat, -⟩ := hstands
  exact outcome_spanFrom_segment hc (.leaf hopens hdelimits later) hat rfl

theorem outcome_element_leaf (hreads : c.ReadsAs ts trees) :
    c.element.outcome p = found ((segmentExpr? true (.leaf t :: trees)).map (·, p + (t :: ts).length)) := by
  by_cases hspread : t.kind = .spread
  · have hspread' : (t.shift c.base).kind = .spread := hspread
    rw [element, run_eq, step, outcome_bind, outcome_peek?, andThen_some, hstands.head]
    dsimp only
    rw [if_pos hspread', outcome_bind, outcome_bump hstands.head, andThen_some, outcome_bind,
      hreads.expr _ hstands.tail, segmentExpr?, if_pos ⟨rfl, hspread⟩]
    cases segmentExpr? false trees with
    | none => rfl
    | some e =>
        rw [Option.map_some, andThen_some, behind_leaf t, outcome_bind,
          outcome_spanFrom_leaf hc hopens hdelimits later hstands, andThen_some, outcome_pure]
        rfl
  · rw [outcome_element_expr, outcome_expr_leaf hc hopens hdelimits later hstands, segmentExpr?,
      if_neg fun h => hspread h.2, Option.map_some]
    intro u hu
    obtain rfl := Option.some.inj (hstands.head.symm.trans hu)
    exact hspread

theorem outcome_value_leaf (hreads : c.ReadsAs ts trees) (key : Token) :
    (c.propertyValue key).outcome p =
      found ((propertyValue? (.leaf t :: trees)).map (·, p + (t :: ts).length)) := by
  obtain ⟨more, hat, -⟩ := id hstands
  have hsegment := Segment.leaf hopens hdelimits later
  by_cases hcolon : t.kind = .colon
  · rw [propertyValue, run_eq, step, outcome_bind, outcome_accept hstands.head hcolon, andThen_some, if_pos rfl,
      hreads.expr _ hstands.tail, propertyValue?, if_pos hcolon, behind_leaf t]
  · rw [outcome_propertyValue_skipped hstands.head hcolon (hstands.not_delimiter hsegment), propertyValue?,
      if_neg hcolon]
    exact outcome_skippedFrom_segment hc hsegment hstands rfl (outcome_skip_segment [] hsegment hat)

theorem outcome_property_leaf (hreads : c.ReadsAs ts trees) :
    c.property.outcome p = found ((property? (.leaf t :: trees)).map (·, p + (t :: ts).length)) := by
  obtain ⟨more, hat, -⟩ := id hstands
  rw [property, run_eq, step, outcome_bind, outcome_peek?, andThen_some, hstands.head]
  dsimp only
  by_cases hspread : t.kind = .spread
  · have hspread' : (t.shift c.base).kind = .spread := hspread
    rw [if_pos hspread', outcome_bind, outcome_element_leaf hc hopens hdelimits later hstands hreads,
      segmentExpr?, if_pos ⟨rfl, hspread⟩, property?, if_pos hspread]
    cases segmentExpr? false trees <;> rfl
  · have hspread' : ¬ (t.shift c.base).kind = .spread := hspread
    rw [if_neg hspread', outcome_bind, run_eq (.propertyKey _), step, Token.key?_shift]
    cases hkey : t.key? with
    | none =>
        have hkind : (t.shift c.base).kind ≠ .lbracket :=
          (TokenKind.ne_of_opens? (rfl : TokenKind.lbracket.opens? = _) hopens).symm
        rw [if_neg (by decide), if_neg hkind, property?, if_neg hspread, hkey]
        rfl
    | some key =>
        rw [if_pos (by rfl), outcome_bind, outcome_bump hstands.head, andThen_some, outcome_pure, andThen_some,
          outcome_bind, hreads.value t _ hstands.tail, behind_leaf t, property?_key hspread hkey]
        cases valueBehind? t trees with
        | none => rfl
        | some value =>
            rw [Option.map_some, andThen_some, outcome_bind,
              outcome_spanFrom_leaf hc hopens hdelimits later hstands, andThen_some, outcome_pure]
            rfl

end

/-- What stands between two brackets that belong together is read with the span of both. -/
theorem outcome_bracketed {σ : Type} (hc : c.InOrder) {loop : Descent σ} {value : Option σ} {opens : TokenKind}
    {opening closing : Token} (hopening : c.tokens[p]? = some (opening.shift c.base))
    (hkind : opening.kind = opens) (hloop : loop.outcome (p + 1) = found (value.map (·, q)))
    (hclosing : c.tokens[q]? = some (closing.shift c.base)) (hpq : p ≤ q) (make : σ → Span → Expr) :
    (do
      let opening ← c.expect opens
      let s ← loop
      let closing ← c.bump
      return make s (← c.span opening.start closing.stop) : Descent Expr).outcome p =
        found (value.map fun s => (make s ⟨opening.start, closing.stop⟩, q + 1)) := by
  have hle := hc.ordered p q _ _ hpq hopening hclosing
  rw [Token.stop_shift] at hle
  rw [outcome_bind, outcome_expect hopening hkind, andThen_some, outcome_bind, hloop]
  cases value with
  | none => rfl
  | some s =>
      rw [Option.map_some, andThen_some, outcome_bind, outcome_bump hclosing, andThen_some, outcome_bind,
        Token.stop_shift, Token.shift, outcome_span_shift (Nat.le_of_add_le_add_right hle), andThen_some,
        outcome_pure]
      rfl

section

variable {opening closing : Token} {shape : Bracket} {inside : List Token} (hc : c.InOrder)
  (hopens : opening.kind.opens? = some shape) (hcloses : closing.kind.closes? = some shape)
  (hinside : c.Items inside segs) (hat : c.At p (opening :: (inside ++ closing :: more)))
include hc hopens hcloses hinside hat

/-- An array or an object is read as its group is, and other brackets begin no literal. -/
theorem outcome_literal?_group :
    shape = .round ∧ (c.literal? (opening.shift c.base)).outcome p = found (some (none, p)) ∨
      (c.literal? (opening.shift c.base)).outcome p =
        found ((Tree.expr? (.group shape ⟨opening.start, closing.stop⟩ segs)).map fun e =>
          (some e, p + 1 + inside.length + 1)) := by
  have hclosing := hat.tail.append
  have hpq : p ≤ p + 1 + inside.length := by omega
  cases shape with
  | round =>
      have hkind : (opening.shift c.base).kind = .lparen := TokenKind.eq_of_opens? hopens rfl
      left
      rw [literal?, run_eq, step, hkind]
      exact ⟨rfl, rfl⟩
  | square =>
      have hkind : (opening.shift c.base).kind = .lbracket := TokenKind.eq_of_opens? hopens rfl
      have hloop := outcome_arrayLoop hinside [] (TokenKind.eq_of_closes? hcloses rfl) hat.tail
      right
      rw [literal?, run_eq, step, hkind]
      dsimp only
      rw [outcome_bind, run_eq .array, step, outcome_bracketed hc hat.head hkind hloop hclosing.head hpq,
        Tree.expr?]
      cases elements? segs <;> rfl
  | curly =>
      have hkind : (opening.shift c.base).kind = .lbrace := TokenKind.eq_of_opens? hopens rfl
      have hloop := outcome_objectLoop hinside [] (TokenKind.eq_of_closes? hcloses rfl) hat.tail
      right
      rw [literal?, run_eq, step, hkind]
      dsimp only
      rw [outcome_bind, run_eq .object, step, outcome_bracketed hc hat.head hkind hloop hclosing.head hpq,
        Tree.expr?]
      cases properties? segs <;> rfl

end

/-- A computed key has no comma outside brackets, and only square brackets make one. -/
theorem outcome_propertyKey_group {opening closing : Token} {shape : Bracket} {inside : List Token}
    (hopens : opening.kind.opens? = some shape) (hcloses : closing.kind.closes? = some shape)
    (within : Segments inside segs) (hat : c.At p (opening :: (inside ++ closing :: more))) :
    (c.propertyKey (opening.shift c.base)).outcome p =
    found (if shape = .square ∧ segs.length ≤ 1 then some ((), p + 1 + inside.length + 1) else none) := by
  have hkey : (opening.shift c.base).key? = none := by
    rw [Token.key?_shift, Token.key?]
    cases hkind : opening.kind <;> first | rfl | (rw [hkind] at hopens; cases hopens)
  rw [propertyKey, run_eq, step, hkey, if_neg (by decide)]
  by_cases hsquare : shape = .square
  · subst hsquare
    have hkind : (opening.shift c.base).kind = .lbracket := TokenKind.eq_of_opens? hopens rfl
    rw [if_pos hkind, outcome_bind, outcome_bump hat.head, andThen_some, outcome_bind]
    cases within with
    | last h =>
        have hclosing := hat.tail.append
        have hdelimiter : c.delimitedAt (p + 1 + inside.length) = true := by
          rw [hclosing.delimiter, List.head?_cons, Option.all_some, TokenKind.delimits_of_closes? hcloses]
        rw [outcome_skip_segment [] h hat.tail, outcome_skip_delimiter hdelimiter, andThen_some, outcome_bind,
          outcome_expect hclosing.head (TokenKind.eq_of_closes? hcloses rfl), andThen_some, outcome_pure,
          if_pos ⟨rfl, Nat.le_refl 1⟩]
    | @comma t ts' more' trees' segs' h hcomma rest =>
        have htail := hat.tail
        rw [List.append_assoc, List.cons_append] at htail
        have hnext := htail.append
        have hdelimiter : c.delimitedAt (p + 1 + ts'.length) = true := by
          rw [hnext.delimiter, List.head?_cons, Option.all_some, hcomma]
          rfl
        have hlength : ¬ (trees' :: segs').length ≤ 1 := by
          have := List.length_pos_iff.2 rest.ne_nil
          rw [List.length_cons]
          omega
        have hother : (t.shift c.base).kind ≠ .rbracket := by
          rw [show (t.shift c.base).kind = .comma from hcomma]
          decide
        rw [outcome_skip_segment [] h htail, outcome_skip_delimiter hdelimiter, andThen_some, outcome_bind,
          outcome_expect_other hnext.head hother, andThen_none, if_neg fun h => hlength h.2]
  · have hkind : ¬ (opening.shift c.base).kind = .lbracket := by
      intro h
      rw [show opening.kind = .lbracket from h] at hopens
      exact hsquare (Option.some.inj hopens).symm
    rw [if_neg hkind, outcome_failure, if_neg fun h => hsquare h.1]

section

variable {opening closing : Token} {shape : Bracket} {inside : List Token} (hc : c.InOrder)
  (hopens : opening.kind.opens? = some shape) (hcloses : closing.kind.closes? = some shape)
  (within : Segments inside segs) (later : Segment ts trees)
  (hstands : c.Stands p (opening :: (inside ++ closing :: ts)))
include hc hopens hcloses within later hstands

theorem outcome_skippedFrom_group (hq : q = p ∨ q = p + 1 + inside.length + 1) :
    (c.skippedFrom (opening.shift c.base).start).outcome q =
      found (some (.other ⟨opening.start, (Tree.group shape ⟨opening.start, closing.stop⟩ segs).lastStop trees⟩,
        p + (opening :: (inside ++ closing :: ts)).length)) := by
  have hsegment := Segment.group hopens hcloses within later
  refine outcome_skippedFrom_segment hc hsegment hstands rfl ?_
  obtain rfl | rfl := hq
  · obtain ⟨more, hat, -⟩ := hstands
    exact outcome_skip_segment [] hsegment hat
  · obtain ⟨more, hat, -⟩ := hstands.group.2
    rw [outcome_skip_segment [] later hat, behind_group opening closing]

theorem outcome_expr_group (hinside : c.Items inside segs) (spreads : Bool) :
    c.expr.outcome p =
      found ((segmentExpr? spreads (.group shape ⟨opening.start, closing.stop⟩ segs :: trees)).map
        (·, p + (opening :: (inside ++ closing :: ts)).length)) := by
  have hsegment := Segment.group hopens hcloses within later
  obtain ⟨⟨more, hat⟩, hlater⟩ := hstands.group
  rw [segmentExpr?]
  obtain ⟨rfl, hliteral⟩ | hliteral := outcome_literal?_group hc hopens hcloses hinside hat
  · rw [outcome_expr_skipped hstands.head hliteral (.inl (hstands.not_delimiter hsegment)),
      outcome_skippedFrom_group hc hopens hcloses within later hstands (.inl rfl), Tree.expr?, Option.map_some,
      Option.map_some]
    cases trees <;> rfl
  · cases hexpr : Tree.expr? (.group shape ⟨opening.start, closing.stop⟩ segs) with
    | none =>
        rw [hexpr] at hliteral
        exact outcome_expr_refused hstands.head hliteral
    | some e =>
        rw [hexpr, Option.map_some] at hliteral
        rw [Option.map_some, Option.map_some]
        cases trees with
        | nil =>
            obtain rfl := later.eq_nil
            rw [outcome_expr_literal hstands.head hliteral hlater.delimiter, if_pos (by rfl),
              ← behind_group opening closing]
            rfl
        | cons tree trees =>
            rw [outcome_expr_skipped hstands.head hliteral (.inl (hlater.not_delimiter later)),
              outcome_skippedFrom_group hc hopens hcloses within later hstands (.inr rfl), if_neg (by simp)]

theorem outcome_value_group (key : Token) :
    (c.propertyValue key).outcome p =
      found ((propertyValue? (.group shape ⟨opening.start, closing.stop⟩ segs :: trees)).map
        (·, p + (opening :: (inside ++ closing :: ts)).length)) := by
  rw [outcome_propertyValue_skipped hstands.head (TokenKind.ne_of_opens? hopens rfl)
    (hstands.not_delimiter (.group hopens hcloses within later)), propertyValue?]
  exact outcome_skippedFrom_group hc hopens hcloses within later hstands (.inl rfl)

theorem outcome_property_group (hreads : c.ReadsAs ts trees) :
    c.property.outcome p =
      found ((property? (.group shape ⟨opening.start, closing.stop⟩ segs :: trees)).map
        (·, p + (opening :: (inside ++ closing :: ts)).length)) := by
  have hspread : (opening.shift c.base).kind ≠ .spread := TokenKind.ne_of_opens? hopens rfl
  obtain ⟨⟨more, hat⟩, hlater⟩ := hstands.group
  rw [property, run_eq, step, outcome_bind, outcome_peek?, andThen_some, hstands.head]
  dsimp only
  rw [if_neg hspread, outcome_bind, outcome_propertyKey_group hopens hcloses within hat, property?]
  by_cases hkey : shape = .square ∧ segs.length ≤ 1
  · have hnone : (opening.shift c.base).key? = none := by
      rw [Token.key?_shift, Token.key?,
        TokenKind.eq_of_opens? hopens (hkey.1 ▸ rfl : TokenKind.lbracket.opens? = _)]
    have hvalue : valueBehind? opening trees = propertyValue? trees := by
      cases trees with
      | nil =>
          rw [valueBehind?, if_neg (TokenKind.ne_of_opens? hopens rfl)]
          rfl
      | cons tree trees => rfl
    rw [if_pos hkey, if_pos hkey, andThen_some, outcome_bind, hreads.value opening _ hlater, hvalue,
      behind_group opening closing]
    cases propertyValue? trees with
    | none => rfl
    | some value =>
        obtain ⟨more', hat', -⟩ := hstands
        have hspan : (c.spanFrom (opening.shift c.base).start).outcome _ = _ :=
          outcome_spanFrom_segment hc (.group hopens hcloses within later) hat' rfl
        rw [Option.map_some, andThen_some, outcome_bind, hspan, andThen_some, outcome_pure, hnone]
        rfl
  · rw [if_neg hkey, if_neg hkey]
    rfl

end

namespace ReadsAs

theorem leaf (hc : c.InOrder) (hopens : t.kind.opens? = none) (hdelimits : t.kind.delimits = false)
    (later : Segment ts trees) (hreads : c.ReadsAs ts trees) : c.ReadsAs (t :: ts) (.leaf t :: trees) where
  expr p h := by
    rw [outcome_expr_leaf hc hopens hdelimits later h, segmentExpr?, if_neg (by simp), Option.map_some]
  element p h := outcome_element_leaf hc hopens hdelimits later h hreads
  value key p h := outcome_value_leaf hc hopens hdelimits later h hreads (key.shift c.base)
  property p h := outcome_property_leaf hc hopens hdelimits later h hreads

theorem group {opening closing : Token} {shape : Bracket} {inside : List Token} (hc : c.InOrder)
    (hopens : opening.kind.opens? = some shape) (hcloses : closing.kind.closes? = some shape)
    (within : Segments inside segs) (hinside : c.Items inside segs) (later : Segment ts trees)
    (hreads : c.ReadsAs ts trees) :
    c.ReadsAs (opening :: (inside ++ closing :: ts))
      (.group shape ⟨opening.start, closing.stop⟩ segs :: trees) where
  expr p h := outcome_expr_group hc hopens hcloses within later h hinside false
  element p h := by
    rw [outcome_element_expr, outcome_expr_group hc hopens hcloses within later h hinside true]
    intro u hu
    obtain rfl := Option.some.inj (h.head.symm.trans hu)
    exact TokenKind.ne_of_opens? hopens rfl
  value key p h := outcome_value_group hc hopens hcloses within later h (key.shift c.base)
  property p h := outcome_property_group hc hopens hcloses within later h hreads

end ReadsAs

mutual

/-- The steps over a segment give what is read of its trees. -/
theorem readsAs_segment (hc : c.InOrder) : {ts : List Token} → {trees : List Tree} → Segment ts trees →
    c.ReadsAs ts trees
  | _, _, .nil => .nil c
  | _, _, .leaf hopens hdelimits later => .leaf hc hopens hdelimits later (readsAs_segment hc later)
  | _, _, .group hopens hcloses within later =>
    .group hc hopens hcloses within (items_segments hc within) later (readsAs_segment hc later)

theorem items_segments (hc : c.InOrder) : {ts : List Token} → {segs : List (List Tree)} → Segments ts segs →
    c.Items ts segs
  | _, _, .last h => .last h (readsAs_segment hc h)
  | _, _, .comma h hcomma later => .comma h (readsAs_segment hc h) hcomma (items_segments hc later)

end

end CallTokens
end PugSize.Script
