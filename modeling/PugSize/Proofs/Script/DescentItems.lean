import PugSize.Proofs.Script.DescentSteps
import PugSize.Proofs.Script.Rows

/-!
The loops of the descent over segments. Where the steps give what is read of each of some segments, the loop
over them gives what is read of them all. Arrays, objects and calls are such loops; they differ in what they
read, in what closes them, and in whether they pass over holes.
-/

namespace PugSize.Script

variable {α : Type}

/-- Segments read one by one. Only the last may be empty, and others where holes are passed over. -/
def itemsOf? (holes : Bool) (read : List Tree → Option α) : List (List Tree) → Option (List α)
  | [] => some []
  | [] :: later => if later.isEmpty then some [] else if holes then itemsOf? holes read later else none
  | (t :: rest) :: later => (read (t :: rest)).bind fun a => (itemsOf? holes read later).map (a :: ·)

theorem itemsOf?_hole {holes : Bool} {read : List Tree → Option α} {later : List (List Tree)}
    (h : later ≠ []) :
    itemsOf? holes read ([] :: later) = if holes then itemsOf? holes read later else none := by
  cases later with
  | nil => exact absurd rfl h
  | cons seg segs => rfl

theorem elements?_eq (segs : List (List Tree)) : elements? segs = itemsOf? true (segmentExpr? true) segs := by
  induction segs with
  | nil => rfl
  | cons seg segs ih =>
      cases seg with
      | nil =>
          rw [elements?, itemsOf?, ih]
          cases segs <;> rfl
      | cons t rest => rw [elements?, itemsOf?, ih]

theorem itemsOf?_rows (read : List Tree → Option α) (segs : List (List Tree)) :
    itemsOf? false read segs = rowsOf? read segs := by
  induction segs with
  | nil => rfl
  | cons seg segs ih =>
      cases seg with
      | nil =>
          rw [rowsOf?, itemsOf?]
          rfl
      | cons t rest => rw [rowsOf?, itemsOf?, ih]

/-- What stands behind a key: a value, or nothing if the key is a name. -/
def valueBehind? (key : Token) : List Tree → Option Expr
  | [] => if key.kind = .ident then some (.other key.span) else none
  | t :: rest => propertyValue? (t :: rest)

theorem property?_key {t : Token} {key : Text} (hspread : t.kind ≠ .spread) (hkey : t.key? = some key)
    (trees : List Tree) : property? (.leaf t :: trees) = (valueBehind? t trees).map fun value =>
      ⟨some key, ⟨t.start, (Tree.leaf t).lastStop trees⟩, value⟩ := by
  rw [property?, if_neg hspread, hkey, Option.bind_some]
  cases trees with
  | nil =>
      rw [valueBehind?]
      split <;> split <;> first | rfl | contradiction
  | cons tree trees => rfl

namespace CallTokens

open Descent

/-- Whether the steps over some tokens give what is read of some trees, before a delimiter. -/
structure ReadsAs (c : CallTokens) (ts : List Token) (trees : List Tree) : Prop where
  expr : ∀ p, c.Stands p ts →
    c.expr.outcome p = found ((segmentExpr? false trees).map (·, p + ts.length))
  element : ∀ p, c.Stands p ts →
    c.element.outcome p = found ((segmentExpr? true trees).map (·, p + ts.length))
  value : ∀ (key : Token) (p : Nat), c.Stands p ts →
    (c.propertyValue (key.shift c.base)).outcome p = found ((valueBehind? key trees).map (·, p + ts.length))
  property : ∀ p, c.Stands p ts →
    c.property.outcome p = found ((property? trees).map (·, p + ts.length))

/-- Tokens that are segments, over each of which the steps give what is read of it. -/
inductive Items (c : CallTokens) : List Token → List (List Tree) → Prop
  | last {ts : List Token} {trees : List Tree} (h : Segment ts trees) (hreads : c.ReadsAs ts trees) :
      Items c ts [trees]
  | comma {t : Token} {ts more : List Token} {trees : List Tree} {segs : List (List Tree)}
      (h : Segment ts trees) (hreads : c.ReadsAs ts trees) (hcomma : t.kind = .comma)
      (later : Items c more segs) : Items c (ts ++ t :: more) (trees :: segs)

variable {c : CallTokens} {p q : Nat} {t : Token} {ts more : List Token} {tree : Tree} {trees : List Tree}
  {segs : List (List Tree)}

/-- An item and the step over the comma behind it, if there is one. -/
theorem outcome_item {read : Descent α} {value : Option α} {closing : TokenKind}
    (hread : read.outcome p = found (value.map (·, q))) (ht : c.tokens[q]? = some t)
    (hkind : t.kind = .comma ∨ t.kind = closing) (s : List α) :
    (do
      let a ← read
      c.separator closing
      return .again (s ++ [a]) : Descent (Round (List α))).outcome p =
        found (value.map fun a => (.again (s ++ [a]), if t.kind = .comma then q + 1 else q)) := by
  have hseparator : (c.separator closing).outcome q =
      found (some ((), if t.kind = .comma then q + 1 else q)) := by
    rw [separator, outcome_bind, outcome_peek?, andThen_some, ht]
    dsimp only
    by_cases hcomma : t.kind = .comma
    · rw [if_pos hcomma, if_pos hcomma, outcome_bind, outcome_bump ht, andThen_some, outcome_pure]
    · rw [if_neg hcomma, if_neg hcomma, if_pos (hkind.resolve_left hcomma), outcome_pure]
  rw [outcome_bind, hread]
  cases value with
  | none => rfl
  | some a => rw [Option.map_some, andThen_some, outcome_bind, hseparator, andThen_some, outcome_pure,
      Option.map_some]

theorem Items.ne_nil (h : c.Items ts segs) : segs ≠ [] := by
  cases h <;> exact List.cons_ne_nil _ _

section

variable {loop : List α → Descent (List α)} {round : List α → Descent (Round (List α))}
  {read : List Tree → Option α} {holes : Bool} {closing : TokenKind} (beyond : Nat)
  (hloop : ∀ s, loop s = round s >>= fun r => r.follow id loop)
  (hended : ∀ s p t, c.tokens[p]? = some t → t.kind = closing →
    (round s).outcome p = found (some (.ended s, p + beyond)))
  (hhole : ∀ s p t, c.tokens[p]? = some t → t.kind = .comma →
    (round s).outcome p = found (if holes then some (.again s, p + 1) else none))
  (hitem : ∀ s p ts tree trees t, Segment ts (tree :: trees) → c.ReadsAs ts (tree :: trees) →
    c.Stands p ts → c.tokens[p + ts.length]? = some t → t.kind = .comma ∨ t.kind = closing →
    (round s).outcome p = found ((read (tree :: trees)).map fun a =>
      (.again (s ++ [a]), if t.kind = .comma then p + ts.length + 1 else p + ts.length)))
include hloop hended hhole hitem

/-- A loop over segments gives what is read of them, with what was gathered before. -/
theorem outcome_items (hcloses : closing.delimits = true) (hclosing : closing ≠ .comma)
    (h : c.Items ts segs) (s : List α) (hkind : t.kind = closing) (hat : c.At p (ts ++ t :: more)) :
    (loop s).outcome p =
      found ((itemsOf? holes read segs).map fun later => (s ++ later, p + ts.length + beyond)) := by
  induction h generalizing s p with
  | @last ts trees h hreads =>
      have hlast : ∀ s p, c.tokens[p]? = some (t.shift c.base) →
          (loop s).outcome p = found (some (s, p + beyond)) := by
        intro s p ht
        rw [hloop, outcome_bind, hended s p _ ht hkind, andThen_some, Round.follow_ended, outcome_pure, id]
      cases trees with
      | nil =>
          obtain rfl := h.eq_nil
          rw [hlast s p hat.head, itemsOf?, if_pos (by rfl), Option.map_some, List.append_nil]
          rfl
      | cons tree trees =>
          have hstands : c.Stands p ts :=
            ⟨t :: more, hat, by rw [List.head?_cons, Option.all_some, hkind, hcloses]⟩
          have hcomma : (t.shift c.base).kind ≠ .comma := fun heq => hclosing (hkind ▸ heq)
          rw [hloop, outcome_bind, hitem s p ts tree trees _ h hreads hstands hat.append.head (.inr hkind),
            itemsOf?, itemsOf?]
          cases read (tree :: trees) with
          | none => rfl
          | some a =>
              rw [Option.map_some, andThen_some, if_neg hcomma]
              exact hlast _ _ hat.append.head
  | @comma u ts rest trees segs h hreads hcomma later ih =>
      rw [List.append_assoc, List.cons_append] at hat
      have hnext := hat.append
      cases trees with
      | nil =>
          obtain rfl := h.eq_nil
          rw [hloop, outcome_bind, hhole s p _ hat.head hcomma, itemsOf?_hole later.ne_nil]
          cases holes with
          | false => rfl
          | true =>
              have hlater := ih s hnext.tail
              rw [List.length_nil, Nat.add_zero] at hlater
              refine hlater.trans ?_
              rw [List.nil_append, ← behind_leaf u]
              rfl
      | cons tree trees =>
          have hstands : c.Stands p ts := ⟨_, hat, by rw [List.head?_cons, Option.all_some, hcomma]; rfl⟩
          rw [hloop, outcome_bind, hitem s p ts tree trees _ h hreads hstands hnext.head (.inl hcomma),
            itemsOf?]
          cases read (tree :: trees) with
          | none => rfl
          | some a =>
              have hcomma' : (u.shift c.base).kind = .comma := hcomma
              have hlength : p + ts.length + 1 + rest.length = p + (ts ++ u :: rest).length := by
                rw [List.length_append, ← Nat.add_assoc, behind_leaf u]
              rw [Option.map_some, andThen_some, if_pos hcomma']
              refine (ih (s ++ [a]) hnext.tail).trans ?_
              rw [hlength, Option.bind_some, Option.map_map]
              congr 2
              funext later
              simp

end

theorem outcome_arrayRound_item (s : List Expr) (h : Segment ts (tree :: trees))
    (hreads : c.ReadsAs ts (tree :: trees)) (hstands : c.Stands p ts)
    (ht : c.tokens[p + ts.length]? = some t) (hkind : t.kind = .comma ∨ t.kind = .rbracket) :
    (c.arrayRound s).outcome p = found ((segmentExpr? true (tree :: trees)).map fun a =>
      (.again (s ++ [a]), if t.kind = .comma then p + ts.length + 1 else p + ts.length)) := by
  obtain ⟨first, hfirst, hdelimits, -⟩ := hstands.begins h
  have hclosing : (first.shift c.base).kind ≠ .rbracket := TokenKind.ne_of_delimits hdelimits rfl
  have hcomma : (first.shift c.base).kind ≠ .comma := TokenKind.ne_of_delimits hdelimits rfl
  rw [arrayRound, run_eq, step, outcome_bind, outcome_peek?, andThen_some, hfirst]
  dsimp only
  rw [if_neg hclosing, if_neg hcomma]
  exact outcome_item (hreads.element p hstands) ht hkind s

theorem outcome_objectRound_item (s : List (Property Expr)) (h : Segment ts (tree :: trees))
    (hreads : c.ReadsAs ts (tree :: trees)) (hstands : c.Stands p ts)
    (ht : c.tokens[p + ts.length]? = some t) (hkind : t.kind = .comma ∨ t.kind = .rbrace) :
    (c.objectRound s).outcome p = found ((property? (tree :: trees)).map fun a =>
      (.again (s ++ [a]), if t.kind = .comma then p + ts.length + 1 else p + ts.length)) := by
  obtain ⟨first, hfirst, hdelimits, -⟩ := hstands.begins h
  have hclosing : (first.shift c.base).kind ≠ .rbrace := TokenKind.ne_of_delimits hdelimits rfl
  rw [objectRound, run_eq, step, outcome_bind, outcome_peek?, andThen_some, hfirst]
  dsimp only
  rw [if_neg hclosing]
  exact outcome_item (hreads.property p hstands) ht hkind s

theorem outcome_arrayLoop (h : c.Items ts segs) (s : List Expr) (hkind : t.kind = .rbracket)
    (hat : c.At p (ts ++ t :: more)) :
    (c.arrayLoop s).outcome p =
      found ((elements? segs).map fun later => (s ++ later, p + ts.length)) := by
  rw [elements?_eq]
  refine outcome_items 0 arrayLoop_eq (fun es p t ht hkind => ?_) (fun es p t ht hkind => ?_)
    (fun es p ts tree trees t => outcome_arrayRound_item es) rfl (by decide) h s hkind hat
  · rw [arrayRound, run_eq, step, outcome_bind, outcome_peek?, andThen_some, ht]
    dsimp only
    rw [if_pos hkind, outcome_pure]
    rfl
  · rw [arrayRound, run_eq, step, outcome_bind, outcome_peek?, andThen_some, ht]
    dsimp only
    rw [if_neg (by rw [hkind]; decide), if_pos hkind, outcome_bind, outcome_bump ht, andThen_some, outcome_pure]
    rfl

theorem outcome_objectLoop (h : c.Items ts segs) (s : List (Property Expr)) (hkind : t.kind = .rbrace)
    (hat : c.At p (ts ++ t :: more)) :
    (c.objectLoop s).outcome p =
      found ((properties? segs).map fun later => (s ++ later, p + ts.length)) := by
  rw [properties?_eq, ← itemsOf?_rows]
  refine outcome_items 0 objectLoop_eq (fun ps p t ht hkind => ?_) (fun ps p t ht hkind => ?_)
    (fun ps p ts tree trees t => outcome_objectRound_item ps) rfl (by decide) h s hkind hat
  · rw [objectRound, run_eq, step, outcome_bind, outcome_peek?, andThen_some, ht]
    dsimp only
    rw [if_pos hkind, outcome_pure]
    rfl
  · rw [objectRound, run_eq, step, outcome_bind, outcome_peek?, andThen_some, ht]
    dsimp only
    rw [if_neg (by rw [hkind]; decide), outcome_bind,
      outcome_property_none (by rw [delimitedAt_token ht, hkind]; rfl), andThen_none]
    rfl

theorem outcome_callRound_item (s : List Expr) (h : Segment ts (tree :: trees))
    (hreads : c.ReadsAs ts (tree :: trees)) (hstands : c.Stands p ts)
    (ht : c.tokens[p + ts.length]? = some t) (hkind : t.kind = .comma ∨ t.kind = .rparen) :
    (c.callRound s).outcome p = found ((segmentExpr? false (tree :: trees)).map fun a =>
      (.again (s ++ [a]), if t.kind = .comma then p + ts.length + 1 else p + ts.length)) := by
  obtain ⟨first, hfirst, hdelimits, -⟩ := hstands.begins h
  have hnot : c.tokens[p]?.map Token.kind ≠ some .rparen := by
    rw [hfirst]
    exact fun heq => TokenKind.ne_of_delimits hdelimits rfl (Option.some.inj heq)
  rw [callRound, run_eq, step, outcome_bind, outcome_accept_other hnot, andThen_some, if_neg (by decide)]
  exact outcome_item (hreads.expr p hstands) ht hkind s

theorem outcome_callLoop (h : c.Items ts segs) (s : List Expr) (hkind : t.kind = .rparen)
    (hat : c.At p (ts ++ t :: more)) :
    (c.callLoop s).outcome p =
      found ((argumentsOf? segs).map fun later => (s ++ later, p + ts.length + 1)) := by
  rw [argumentsOf?_eq, ← itemsOf?_rows]
  refine outcome_items 1 callLoop_eq (fun es p t ht hkind => ?_) (fun es p t ht hkind => ?_)
    (fun es p ts tree trees t => outcome_callRound_item es) rfl (by decide) h s hkind hat
  · rw [callRound, run_eq, step, outcome_bind, outcome_accept ht hkind, andThen_some, if_pos rfl, outcome_pure]
  · have hnot : c.tokens[p]?.map Token.kind ≠ some .rparen := by
      rw [ht, Option.map_some, hkind]
      decide
    rw [callRound, run_eq, step, outcome_bind, outcome_accept_other hnot, andThen_some, if_neg (by decide),
      outcome_bind, outcome_expr_none (by rw [delimitedAt_token ht, hkind]; rfl), andThen_none]
    rfl

end CallTokens
end PugSize.Script
