import PugSize.Proofs.Script.Advance
import PugSize.Proofs.Script.Moved
import PugSize.Proofs.Script.TokenTrees

/-!
Steps of the descent over tokens that make trees. A segment is skipped up to the delimiter behind it, and the
span from its first tree to its last one is recorded.
-/

namespace PugSize.Script

theorem Token.stop_shift (n : Nat) (t : Token) : (t.shift n).stop = t.stop + n := Nat.add_right_comm _ _ _

namespace CallTokens

open Descent

variable (c : CallTokens)

/-- Whether tokens stand at a position and behind it, moved by the width of what stands before the
arguments. -/
def At (p : Nat) (ts : List Token) : Prop := c.tokens.drop p = ts.map (Token.shift c.base)

/-- Whether tokens stand at a position with a delimiter behind them, or nothing. -/
def Stands (p : Nat) (ts : List Token) : Prop :=
  ∃ more, c.At p (ts ++ more) ∧ (more.head?.all fun t => t.kind.delimits) = true

variable {c} {p : Nat} {t : Token} {ts more : List Token} {tree : Tree} {trees : List Tree}

namespace At

theorem getElem? (h : c.At p ts) : c.tokens[p]? = ts.head?.map (Token.shift c.base) := by
  rw [← List.head?_drop, h, List.head?_map]

theorem head (h : c.At p (t :: ts)) : c.tokens[p]? = some (t.shift c.base) := h.getElem?

theorem append (h : c.At p (ts ++ more)) : c.At (p + ts.length) more := by
  rw [At, ← List.drop_drop, h, List.map_append]
  exact List.drop_left' (List.length_map _)

theorem tail (h : c.At p (t :: ts)) : c.At (p + 1) ts :=
  show c.At (p + [t].length) ts from append h

theorem delimiter (h : c.At p ts) :
    c.delimitedAt p = (ts.head?.all fun t => t.kind.delimits) := by
  rw [delimitedAt, h.getElem?]
  cases ts <;> rfl

end At

theorem Stands.delimiter (h : c.Stands p ts) :
    c.delimitedAt (p + ts.length) = true := by
  obtain ⟨more, hat, hmore⟩ := h
  rw [hat.append.delimiter, hmore]

theorem Stands.head (h : c.Stands p (t :: ts)) : c.tokens[p]? = some (t.shift c.base) := by
  obtain ⟨more, hat, -⟩ := h
  exact hat.head

theorem Stands.tail (h : c.Stands p (t :: ts)) : c.Stands (p + 1) ts := by
  obtain ⟨more, hat, hmore⟩ := h
  exact ⟨more, hat.tail, hmore⟩

/-- No delimiter stands where a segment begins. -/
theorem Stands.begins (hstands : c.Stands p ts) (h : Segment ts (tree :: trees)) :
    ∃ first : Token, c.tokens[p]? = some (first.shift c.base) ∧ first.kind.delimits = false ∧
      first.start = tree.span.start := by
  obtain ⟨first, -, hfirst, -, hdelimits, hstart, -⟩ := h.bounds
  obtain ⟨more, hat, -⟩ := hstands
  exact ⟨first, by rw [hat.getElem?, List.head?_append, hfirst, Option.some_or, Option.map_some],
    hdelimits, hstart⟩

theorem Stands.not_delimiter (hstands : c.Stands p ts) (h : Segment ts (tree :: trees)) :
    c.delimitedAt p = false := by
  obtain ⟨first, hfirst, hdelimits, -⟩ := hstands.begins h
  rw [delimitedAt_token hfirst]
  exact hdelimits

/-- A bracket group at a position, what is between its brackets, and what is behind them. -/
theorem Stands.group {opening closing : Token} {inside : List Token}
    (h : c.Stands p (opening :: (inside ++ closing :: ts))) :
    (∃ more, c.At p (opening :: (inside ++ closing :: more))) ∧ c.Stands (p + 1 + inside.length + 1) ts := by
  obtain ⟨more, hat, hmore⟩ := h
  rw [List.cons_append, List.append_assoc, List.cons_append] at hat
  exact ⟨⟨ts ++ more, hat⟩, more, hat.tail.append.tail, hmore⟩

theorem behind_leaf (t : Token) (ts : List Token) (p : Nat) : p + 1 + ts.length = p + (t :: ts).length := by
  rw [List.length_cons, Nat.add_right_comm, Nat.add_assoc]

theorem behind_group (opening closing : Token) (inside ts : List Token) (p : Nat) :
    p + 1 + inside.length + 1 + ts.length = p + (opening :: (inside ++ closing :: ts)).length := by
  simp only [List.length_cons, List.length_append]
  omega

/-- Skipping goes on behind a token that is no delimiter outside all brackets. -/
theorem outcome_skip_token {stack stack' : List Bracket} (ht : c.tokens[p]? = some t)
    (hbehind : t.kind.behind? stack = some stack') (hgo : t.kind.delimits = false ∨ stack ≠ []) :
    (c.skip stack).outcome p = (c.skip stack').outcome (p + 1) := by
  have hcomma : ¬ (t.kind = .comma ∧ stack = []) := by
    rintro ⟨hkind, hstack⟩
    rw [hkind] at hgo
    exact hgo.elim (nomatch ·) (· hstack)
  have hround : (c.skipRound stack).outcome p = found (some (.again stack', p + 1)) := by
    rw [skipRound, outcome_bind, outcome_peek?, ht, andThen_some]
    dsimp only
    cases hopens : t.kind.opens? with
    | some shape =>
      rw [TokenKind.behind?_opens hopens] at hbehind
      cases hbehind
      dsimp only
      rw [outcome_bind, outcome_bump ht, andThen_some, outcome_pure]
    | none =>
      cases hcloses : t.kind.closes? with
      | none =>
        rw [TokenKind.behind?_other hopens hcloses] at hbehind
        cases hbehind
        dsimp only
        rw [if_neg hcomma, outcome_bind, outcome_bump ht, andThen_some, outcome_pure]
      | some shape =>
        unfold TokenKind.behind? at hbehind
        rw [hopens, hcloses] at hbehind
        cases stack with
        | nil => cases hbehind
        | cons opened outer =>
          dsimp only at hbehind
          split at hbehind
          · rename_i heq
            cases hbehind
            dsimp only
            rw [if_pos heq, outcome_bind, outcome_bump ht, andThen_some, outcome_pure]
          · cases hbehind
  rw [skip, run_eq, step, outcome_bind, hround, andThen_some]

theorem outcome_skip_delimiter (h : c.delimitedAt p = true) :
    (c.skip []).outcome p = found (some ((), p)) := by
  have hround : (c.skipRound []).outcome p = found (some (.ended [], p)) := by
    rw [skipRound, outcome_bind, outcome_peek?, andThen_some]
    cases ht : c.tokens[p]? with
    | none => rfl
    | some t =>
        rw [delimitedAt_token ht] at h
        obtain ⟨kind, text, start⟩ := t
        cases kind <;> first | rfl | cases h
  rw [skip, run_eq, step, outcome_bind, hround, andThen_some, outcome_pure]

mutual

/-- A segment is skipped whatever brackets are open. -/
theorem outcome_skip_segment (stack : List Bracket) : {ts : List Token} → {trees : List Tree} →
    Segment ts trees → ∀ {p : Nat} {more : List Token}, c.At p (ts ++ more) →
      (c.skip stack).outcome p = (c.skip stack).outcome (p + ts.length)
  | _, _, .nil, _, _, _ => rfl
  | _, _, @Segment.leaf t ts _ hopens hdelimits later, p, more, hat => by
      have hbehind : t.kind.behind? stack = some stack :=
        TokenKind.behind?_other hopens (TokenKind.closes?_of_delimits hdelimits)
      rw [outcome_skip_token hat.head hbehind (.inl hdelimits), outcome_skip_segment stack later hat.tail,
        behind_leaf t]
  | _, _, @Segment.group opening closing shape inside ts segs _ hopens hcloses within later, p, more, hat => by
      have hinside : c.At (p + 1) (inside ++ closing :: (ts ++ more)) := by
        have htail : c.At (p + 1) ((inside ++ closing :: ts) ++ more) := hat.tail
        rwa [List.append_assoc, List.cons_append] at htail
      have hclosing := hinside.append
      rw [outcome_skip_token hat.head (TokenKind.behind?_opens hopens)
          (.inl (TokenKind.delimits_of_opens? hopens)),
        outcome_skip_segments (shape :: stack) (List.cons_ne_nil _ _) within hinside,
        outcome_skip_token hclosing.head (TokenKind.behind?_closes hcloses) (.inr (List.cons_ne_nil _ _)),
        outcome_skip_segment stack later hclosing.tail]
      rw [behind_group opening closing]

/-- Commas are skipped within brackets. -/
theorem outcome_skip_segments (stack : List Bracket) (hstack : stack ≠ []) : {ts : List Token} →
    {segs : List (List Tree)} → Segments ts segs → ∀ {p : Nat} {more : List Token}, c.At p (ts ++ more) →
      (c.skip stack).outcome p = (c.skip stack).outcome (p + ts.length)
  | _, _, .last h, _, _, hat => outcome_skip_segment stack h hat
  | _, _, @Segments.comma t ts rest _ _ h hcomma later, p, more, hat => by
      rw [List.append_assoc] at hat
      have hnext := hat.append
      rw [outcome_skip_segment stack h hat,
        outcome_skip_token hnext.head (TokenKind.behind?_other (by rw [Token.shift, hcomma]; rfl)
          (by rw [Token.shift, hcomma]; rfl)) (.inr hstack),
        outcome_skip_segments stack hstack later hnext.tail]
      congr 1
      simp only [List.length_cons, List.length_append]
      omega

end

theorem outcome_span_shift {start stop : Nat} (h : start ≤ stop) (p : Nat) :
    (c.span (start + c.base) (stop + c.base)).outcome p = found (some (⟨start, stop⟩, p)) := by
  rw [outcome_span (Nat.le_add_left _ _) (Nat.add_le_add_right h _), Nat.add_sub_cancel, Nat.add_sub_cancel]

theorem outcome_span_token (t : Token) (p : Nat) :
    (c.span (t.shift c.base).start (t.shift c.base).stop).outcome p = found (some (t.span, p)) := by
  rw [Token.stop_shift]
  exact outcome_span_shift (Nat.le_add_right _ _) p

section

variable {q : Nat} (hc : c.InOrder)
include hc

/-- Behind a segment its span is recorded. -/
theorem outcome_spanFrom_segment (h : Segment ts (tree :: trees)) (hat : c.At p (ts ++ more)) {start : Nat}
    (hstart : start = tree.span.start + c.base) : (c.spanFrom start).outcome (p + ts.length) =
      found (some (⟨tree.span.start, tree.lastStop trees⟩, p + ts.length)) := by
  obtain ⟨first, last, hfirst, hlast, -, hbegin, hstop⟩ := h.bounds
  obtain ⟨n, hn⟩ : ∃ n, ts.length = n + 1 := by
    cases ts with
    | nil => cases hfirst
    | cons t ts => exact ⟨_, rfl⟩
  have htfirst : c.tokens[p]? = some (first.shift c.base) := by
    rw [hat.getElem?, List.head?_append, hfirst, Option.some_or, Option.map_some]
  have htlast : c.tokens[p + n]? = some (last.shift c.base) := by
    rw [List.getLast?_eq_getElem?, hn, Nat.add_sub_cancel] at hlast
    rw [← List.getElem?_drop, hat, List.getElem?_map, List.getElem?_append_left (by omega), hlast,
      Option.map_some]
  have hle := hc.ordered p (p + n) _ _ (Nat.le_add_right p n) htfirst htlast
  rw [Token.stop_shift, hstop] at hle
  have hle' : tree.span.start ≤ tree.lastStop trees := by
    rw [← hbegin]
    exact Nat.le_of_add_le_add_right hle
  rw [hstart, hn, ← Nat.add_assoc, spanFrom, outcome_bind, outcome_lastEnd htlast, andThen_some,
    Token.stop_shift, hstop, outcome_span_shift hle']

theorem outcome_skippedFrom_segment (h : Segment ts (tree :: trees)) (hstands : c.Stands p ts) {start : Nat}
    (hstart : start = tree.span.start + c.base)
    (hskip : (c.skip []).outcome q = (c.skip []).outcome (p + ts.length)) : (c.skippedFrom start).outcome q =
      found (some (.other ⟨tree.span.start, tree.lastStop trees⟩, p + ts.length)) := by
  obtain ⟨more, hat, -⟩ := id hstands
  rw [skippedFrom, run_eq, step, outcome_bind, hskip, outcome_skip_delimiter hstands.delimiter, andThen_some,
    outcome_bind, outcome_spanFrom_segment hc h hat hstart, andThen_some, outcome_pure]

end

section

variable {first : Token} {q : Nat} (hfirst : c.tokens[p]? = some first)
include hfirst

/-- An expression is a literal up to a delimiter, or it is skipped. -/
theorem outcome_expr : c.expr.outcome p = ((c.literal? first).outcome p).andThen fun r q =>
    match r, c.delimitedAt q with
    | some e, true => found (some (e, q))
    | _, delimited =>
      if delimited = true ∧ q = p then found none else (c.skippedFrom first.start).outcome q := by
  rw [expr, run_eq, step, outcome_bind, outcome_get, andThen_some, outcome_bind, outcome_peek?, andThen_some,
    hfirst]
  dsimp only
  rw [outcome_bind]
  congr 1
  funext r q
  rw [outcome_bind, outcome_atDelimiter, andThen_some]
  cases r <;> cases c.delimitedAt q <;> first | rfl | (simp; split <;> rfl)

theorem outcome_expr_refused (h : (c.literal? first).outcome p = found none) :
    c.expr.outcome p = found none := by
  rw [outcome_expr hfirst, h, andThen_none]

theorem outcome_expr_literal {e : Expr} (h : (c.literal? first).outcome p = found (some (some e, q)))
    (hend : c.delimitedAt q = true) : c.expr.outcome p = found (some (e, q)) := by
  rw [outcome_expr hfirst, h, andThen_some, hend]

theorem outcome_expr_skipped {r : Option Expr} (h : (c.literal? first).outcome p = found (some (r, q)))
    (hgo : c.delimitedAt q = false ∨ r = none ∧ q ≠ p) :
    c.expr.outcome p = (c.skippedFrom first.start).outcome q := by
  rw [outcome_expr hfirst, h, andThen_some]
  obtain hnot | ⟨rfl, hmoved⟩ := hgo
  · rw [hnot]
    cases r <;> rfl
  · exact if_neg fun h => hmoved h.2

end

theorem outcome_expr_none (h : c.delimitedAt p = true) : c.expr.outcome p = found none := by
  cases ht : c.tokens[p]? with
  | none =>
      rw [expr, run_eq, step, outcome_bind, outcome_get, andThen_some, outcome_bind, outcome_peek?,
        andThen_some, ht]
      rfl
  | some t =>
      have hkind := (delimitedAt_token ht).symm.trans h
      have hliteral : (c.literal? t).outcome p = found (some (none, p)) := by
        obtain ⟨kind, text, start⟩ := t
        cases kind <;> first | (rw [literal?, run_eq, step]; rfl) | cases hkind
      rw [outcome_expr ht, hliteral, andThen_some, h]
      exact if_pos ⟨rfl, rfl⟩

theorem outcome_propertyKey_none (h : t.kind.delimits = true) : (c.propertyKey t).outcome p = found none := by
  rw [propertyKey, run_eq, step]
  obtain ⟨kind, text, start⟩ := t
  cases kind <;> first | rfl | cases h

theorem outcome_property_none (h : c.delimitedAt p = true) :
    c.property.outcome p = found none := by
  rw [property, run_eq, step, outcome_bind, outcome_peek?, andThen_some]
  cases ht : c.tokens[p]? with
  | none => rfl
  | some t =>
      rw [delimitedAt_token ht] at h
      have hspread : t.kind ≠ .spread := fun heq => by rw [heq] at h; cases h
      dsimp only
      rw [if_neg hspread, outcome_bind, outcome_propertyKey_none h, andThen_none]

/-- What follows a key, other than a colon and a value, is skipped. -/
theorem outcome_propertyValue_skipped (ht : c.tokens[p]? = some t) (hcolon : t.kind ≠ .colon)
    (hdelimiter : c.delimitedAt p = false) (key : Token) :
    (c.propertyValue key).outcome p = (c.skippedFrom t.start).outcome p := by
  have hnot : c.tokens[p]?.map Token.kind ≠ some .colon := by
    rw [ht]
    exact fun h => hcolon (Option.some.inj h)
  rw [propertyValue, run_eq, step, outcome_bind, outcome_accept_other hnot, andThen_some, if_neg (by decide),
    outcome_bind, outcome_atDelimiter, andThen_some, hdelimiter, if_neg (by decide), outcome_bind,
    outcome_peek?, andThen_some, ht]

/-- An element that is no spread is an expression. -/
theorem outcome_element_expr (h : ∀ t, c.tokens[p]? = some t → t.kind ≠ .spread) :
    c.element.outcome p = c.expr.outcome p := by
  rw [element, run_eq, step, outcome_bind, outcome_peek?, andThen_some]
  cases ht : c.tokens[p]? with
  | none => exact (outcome_expr_none (delimitedAt_none ht)).symm
  | some t =>
      dsimp only
      rw [if_neg (h t ht)]

end CallTokens
end PugSize.Script
