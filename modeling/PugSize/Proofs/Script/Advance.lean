import PugSize.Proofs.Script.Approximation
import PugSize.Proofs.Script.Nesting

/-!
A descent always ends and never leaves its bounds. What a step moves over is well nested, a step that gives
something moves on, and so does each round of a loop but the last one; the spans that are recorded begin
behind the prefix of the call and end behind their start. The tokens may be any tokens in their order.
-/

namespace PugSize.Script

/-- The open brackets behind a token, the innermost first, unless it closes another one than that. -/
def TokenKind.behind? (stack : List Bracket) (kind : TokenKind) : Option (List Bracket) :=
  match kind.opens?, kind.closes?, stack with
  | some shape, _, _ => some (shape :: stack)
  | none, some _, [] => none
  | none, some shape, opened :: outer => if opened = shape then some outer else none
  | none, none, _ => some stack

namespace TokenKind

variable {kind : TokenKind} {shape : Bracket} {stack stack' : List Bracket}

theorem behind?_opens (h : kind.opens? = some shape) : kind.behind? stack = some (shape :: stack) := by
  simp only [behind?, h]

theorem behind?_closes (h : kind.closes? = some shape) : kind.behind? (shape :: stack) = some stack := by
  simp only [behind?, h, opens?_of_closes? h, if_true]

theorem behind?_other (hopens : kind.opens? = none) (hcloses : kind.closes? = none) :
    kind.behind? stack = some stack := by
  simp only [behind?, hopens, hcloses]

/-- Further brackets around the open ones change nothing. -/
theorem behind?_append (h : kind.behind? stack = some stack') (outer : List Bracket) :
    kind.behind? (stack ++ outer) = some (stack' ++ outer) := by
  unfold behind? at h
  split at h
  · rename_i hopens
    cases h
    exact behind?_opens hopens
  · cases h
  · rename_i hopens hcloses
    split at h
    · rename_i heq
      cases h
      subst heq
      exact behind?_closes hcloses
    · cases h
  · rename_i hopens hcloses
    cases h
    exact behind?_other hopens hcloses

end TokenKind

namespace CallTokens

variable (c : CallTokens)

/-- The way over tokens from one position to another, with the brackets that are open at both. -/
inductive Walk : List Bracket → Nat → List Bracket → Nat → Prop
  | here {stack : List Bracket} {p : Nat} : Walk stack p stack p
  | token {stack stack' stack'' : List Bracket} {p q : Nat} {t : Token} (ht : c.tokens[p]? = some t)
      (hbehind : t.kind.behind? stack = some stack') (later : Walk stack' (p + 1) stack'' q) :
      Walk stack p stack'' q

/-- Whether each bracket between two positions is closed there in its turn. -/
def Nested (p q : Nat) : Prop := c.Walk [] p [] q

/-- Whether tokens stand in their order, from the third one on behind the prefix of the call. -/
structure InOrder : Prop where
  behind : ∀ (i : Nat) (t : Token), 2 ≤ i → c.tokens[i]? = some t → c.base ≤ t.start
  ordered : ∀ (i j : Nat) (s t : Token), i ≤ j → c.tokens[i]? = some s → c.tokens[j]? = some t →
    s.start ≤ t.stop

variable {c} {stack stack' stack'' : List Bracket} {p q r : Nat}

theorem lt_length {t : Token} (ht : c.tokens[p]? = some t) : p < c.tokens.length :=
  (List.getElem?_eq_some_iff.1 ht).1

namespace Walk

theorem le (h : c.Walk stack p stack' q) : p ≤ q := by
  induction h with
  | here => exact Nat.le_refl _
  | token ht hbehind later ih => exact Nat.le_of_succ_le ih

theorem le_length (h : c.Walk stack p stack' q) (hp : p ≤ c.tokens.length) : q ≤ c.tokens.length := by
  induction h with
  | here => exact hp
  | token ht hbehind later ih => exact ih (lt_length ht)

theorem le_length_of_lt (h : c.Walk stack p stack' q) (hlt : p < q) : q ≤ c.tokens.length := by
  cases h with
  | here => exact absurd hlt (Nat.lt_irrefl p)
  | token ht hbehind later => exact later.le_length (lt_length ht)

theorem trans (h : c.Walk stack p stack' q) (h' : c.Walk stack' q stack'' r) : c.Walk stack p stack'' r := by
  induction h with
  | here => exact h'
  | token ht hbehind later ih => exact .token ht hbehind (ih h')

theorem append (h : c.Walk stack p stack' q) (outer : List Bracket) :
    c.Walk (stack ++ outer) p (stack' ++ outer) q := by
  induction h with
  | here => exact .here
  | token ht hbehind later ih => exact .token ht (TokenKind.behind?_append hbehind outer) ih

end Walk

namespace Nested

theorem single {t : Token} (ht : c.tokens[p]? = some t) (hopens : t.kind.opens? = none)
    (hcloses : t.kind.closes? = none) : c.Nested p (p + 1) :=
  Walk.token ht (TokenKind.behind?_other hopens hcloses) .here

theorem group {opening closing : Token} {shape : Bracket} (hopening : c.tokens[p]? = some opening)
    (hclosing : c.tokens[q]? = some closing) (hopens : opening.kind.opens? = some shape)
    (hcloses : closing.kind.closes? = some shape) (h : c.Nested (p + 1) q) : c.Nested p (q + 1) :=
  Walk.token hopening (TokenKind.behind?_opens hopens)
    ((h.append [shape]).trans (.token hclosing (TokenKind.behind?_closes hcloses) .here))

end Nested

open Descent

theorem ends_separator (closing : TokenKind) : (c.separator closing).Ends p fun _ q => c.Nested p q := by
  rw [separator, ends_bind, ends_peek?]
  cases ht : c.tokens[p]? with
  | none => exact ends_failure
  | some t =>
      dsimp only
      split
      · rename_i hcomma
        refine ends_bind.2 (ends_bump.2 fun _ _ => (ends_pure _).2 ?_)
        exact .single ht (by rw [hcomma]; rfl) (by rw [hcomma]; rfl)
      · split
        · exact (ends_pure _).2 .here
        · exact ends_failure

/-- A round steps over a token, unless there is none or it is a delimiter outside all brackets. -/
theorem ends_skipRound (stack : List Bracket) : (c.skipRound stack).Ends p fun r q =>
    r.Is (fun _ => q = p ∧ stack = [] ∧ c.delimitedAt p = true)
      (fun stack' => q = p + 1 ∧ ∃ t, c.tokens[p]? = some t ∧ t.kind.behind? stack = some stack') := by
  rw [skipRound, ends_bind, ends_peek?]
  cases ht : c.tokens[p]? with
  | none =>
      by_cases hstack : stack = []
      · simp [hstack, delimitedAt_none ht]
      · simp [hstack]
  | some t =>
      dsimp only
      split
      · rename_i hopens
        simp [ht, TokenKind.behind?_opens hopens]
      · rename_i hcloses
        simp [delimitedAt_token ht, TokenKind.delimits, hcloses]
      · rename_i hcloses
        split
        · rename_i heq
          subst heq
          simp [ht, TokenKind.behind?_closes hcloses]
        · exact ends_failure
      · rename_i hopens hcloses
        split
        · rename_i hcomma
          simp [delimitedAt_token ht, hcomma, TokenKind.delimits]
        · simp [ht, TokenKind.behind?_other hopens hcloses]

/-- What is skipped closes the open brackets, and something is unless a delimiter stands there. -/
theorem ends_skip (stack : List Bracket) : (c.skip stack).Ends p fun _ q =>
    c.Walk stack p [] q ∧ (c.delimitedAt p = false → p < q) := by
  refine ends_loop c.skipRound (fun _ => ()) c.tokens.length 0 (fun stack p _ q =>
      c.Walk stack p [] q ∧ (c.delimitedAt p = false → p < q))
    skip_eq (fun stack p _ => ?_) (Nat.zero_le p) stack
  refine (ends_skipRound stack).mono fun r q hr => ?_
  cases r with
  | ended s =>
      obtain ⟨rfl, rfl, hall⟩ := hr
      exact ⟨.here, fun h => by rw [hall] at h; cases h⟩
  | again stack' =>
      obtain ⟨rfl, t, ht, hbehind⟩ := hr
      exact ⟨Nat.lt_succ_self p, lt_length ht, fun _ q h => ⟨.token ht hbehind h.1, fun _ => h.1.le⟩⟩

theorem outcome_spanFrom (hc : c.InOrder) {first last : Token} (hp : 2 ≤ p) (hpq : p ≤ q)
    (hfirst : c.tokens[p]? = some first) (hlast : c.tokens[q]? = some last) :
    (c.spanFrom first.start).outcome (q + 1) =
      found (some (⟨first.start - c.base, last.stop - c.base⟩, q + 1)) := by
  rw [spanFrom, outcome_bind, outcome_lastEnd hlast, andThen_some,
    outcome_span (hc.behind p first hp hfirst) (hc.ordered p q first last hpq hfirst hlast)]

theorem ends_span (hc : c.InOrder) {first last : Token} (hp : 2 ≤ p) (hpq : p ≤ q)
    (hfirst : c.tokens[p]? = some first) (hlast : c.tokens[q]? = some last) {post : Span → Nat → Prop}
    (hpost : ∀ s, post s r) : (c.span first.start last.stop).Ends r post :=
  (ends_some (outcome_span (hc.behind p first hp hfirst)
    (hc.ordered p q first last hpq hfirst hlast) r)).2 (hpost _)

theorem ends_spanFrom (hc : c.InOrder) {first : Token} (hp : 2 ≤ p) (hpq : p < q)
    (hq : q ≤ c.tokens.length) (hfirst : c.tokens[p]? = some first) {post : Span → Nat → Prop}
    (hpost : ∀ s, post s q) : (c.spanFrom first.start).Ends q post := by
  obtain ⟨last, rfl⟩ : ∃ last, q = last + 1 := ⟨q - 1, by omega⟩
  have hlast : c.tokens[last]? = some c.tokens[last] := List.getElem?_eq_getElem hq
  exact (ends_some (outcome_spanFrom hc hp (Nat.le_of_lt_succ hpq) hfirst hlast)).2 (hpost _)

/-- An expression of which only the span is known moves on from the token that it begins with. -/
theorem ends_skippedFrom (hc : c.InOrder) {first : Token} (hp : 2 ≤ p) (hfirst : c.tokens[p]? = some first)
    (hpq : c.Nested p q) (hlt : p < q ∨ c.delimitedAt q = false) :
    (c.skippedFrom first.start).Ends q fun _ r => p < r ∧ c.Nested p r := by
  rw [skippedFrom, run_eq, step, ends_bind]
  refine (ends_skip []).mono fun _ r hr => ?_
  have hpr : p < r := by
    obtain hlt | hnot := hlt
    · exact Nat.lt_of_lt_of_le hlt hr.1.le
    · exact Nat.lt_of_le_of_lt hpq.le (hr.2 hnot)
  have hnested : c.Nested p r := hpq.trans hr.1
  rw [ends_bind]
  exact ends_spanFrom hc hp hpr (hnested.le_length (Nat.le_of_lt (lt_length hfirst))) hfirst
    fun _ => (ends_pure _).2 ⟨hpr, hnested⟩

/-- What is promised of the steps at a position that read an expression, an element or a property. -/
structure Advances (c : CallTokens) (p : Nat) : Prop where
  expr : c.expr.Ends p fun _ q => p < q ∧ c.Nested p q
  element : c.element.Ends p fun _ q => p < q ∧ c.Nested p q
  property : c.property.Ends p fun _ q => p < q ∧ c.Nested p q

theorem ends_arrayRound (h : c.Advances p) (es : List Expr) : (c.arrayRound es).Ends p fun r q =>
    r.Is (fun _ => q = p ∧ ∃ t, c.tokens[p]? = some t ∧ t.kind = .rbracket)
      (fun _ => p < q ∧ c.Nested p q) := by
  rw [arrayRound, run_eq, step, ends_bind, ends_peek?]
  cases ht : c.tokens[p]? with
  | none => exact ends_failure
  | some t =>
      dsimp only
      split
      · rename_i hclosing
        exact (ends_pure _).2 ⟨rfl, t, rfl, hclosing⟩
      · split
        · rename_i hcomma
          refine ends_bind.2 (ends_bump.2 fun _ _ => (ends_pure _).2 ⟨Nat.lt_succ_self p, ?_⟩)
          exact .single ht (by rw [hcomma]; rfl) (by rw [hcomma]; rfl)
        · rw [ends_bind]
          refine h.element.mono fun e q hq => ?_
          rw [ends_bind]
          refine (ends_separator _).mono fun _ r hr => (ends_pure _).2 ?_
          exact ⟨Nat.lt_of_lt_of_le hq.1 hr.le, hq.2.trans hr⟩

theorem ends_objectRound (h : c.Advances p) (ps : List (Property Expr)) : (c.objectRound ps).Ends p fun r q =>
    r.Is (fun _ => q = p ∧ ∃ t, c.tokens[p]? = some t ∧ t.kind = .rbrace)
      (fun _ => p < q ∧ c.Nested p q) := by
  rw [objectRound, run_eq, step, ends_bind, ends_peek?]
  cases ht : c.tokens[p]? with
  | none => exact ends_failure
  | some t =>
      dsimp only
      split
      · rename_i hclosing
        exact (ends_pure _).2 ⟨rfl, t, rfl, hclosing⟩
      · rw [ends_bind]
        refine h.property.mono fun e q hq => ?_
        rw [ends_bind]
        refine (ends_separator _).mono fun _ r hr => (ends_pure _).2 ?_
        exact ⟨Nat.lt_of_lt_of_le hq.1 hr.le, hq.2.trans hr⟩

/-- The loop of an array or an object ends before the bracket that closes it. -/
theorem ends_bracketLoop {σ : Type} {loop : σ → Descent σ} (round : σ → Descent (Round σ))
    (kind : TokenKind) (first : Nat)
    (hloop : ∀ s, loop s = round s >>= fun r => r.follow id loop)
    (hround : ∀ s p, first ≤ p → (round s).Ends p fun r q =>
      r.Is (fun _ => q = p ∧ ∃ t, c.tokens[p]? = some t ∧ t.kind = kind) (fun _ => p < q ∧ c.Nested p q))
    (s : σ) : (loop s).Ends first fun _ q =>
      c.Nested first q ∧ ∃ t, c.tokens[q]? = some t ∧ t.kind = kind := by
  refine ends_loop round id c.tokens.length first
    (fun _ p _ q => c.Nested p q ∧ ∃ t, c.tokens[q]? = some t ∧ t.kind = kind)
    hloop (fun s p hp => ?_) (Nat.le_refl first) s
  refine (hround s p hp).mono fun r q hr => ?_
  cases r with
  | ended s' =>
      obtain ⟨rfl, hclosing⟩ := hr
      exact ⟨.here, hclosing⟩
  | again s' =>
      exact ⟨hr.1, hr.2.le_length_of_lt hr.1, fun _ q' h => ⟨hr.2.trans h.1, h.2⟩⟩

/-- An array or an object moves on behind the bracket that closes it. -/
theorem ends_bracketed (hc : c.InOrder) (hp : 2 ≤ p) {σ : Type} {loop : Descent σ} {opens closes : TokenKind}
    {shape : Bracket} (hopens : opens.opens? = some shape) (hcloses : closes.closes? = some shape)
    (hloop : loop.Ends (p + 1) fun _ q => c.Nested (p + 1) q ∧ ∃ t, c.tokens[q]? = some t ∧ t.kind = closes)
    (make : σ → Span → Expr) :
    (do
      let opening ← c.expect opens
      let s ← loop
      let closing ← c.bump
      return make s (← c.span opening.start closing.stop) : Descent Expr).Ends p
        fun _ q => p < q ∧ c.Nested p q := by
  rw [ends_bind, ends_expect]
  intro opening hopening hkind
  rw [ends_bind]
  refine hloop.mono fun s q hq => ?_
  obtain ⟨hnested, closing, hclosing, hkind'⟩ := hq
  have hpq : p < q := hnested.le
  rw [ends_bind, ends_some (outcome_bump hclosing), ends_bind]
  refine ends_span hc hp (Nat.le_of_lt hpq) hopening hclosing fun _ => (ends_pure _).2 ?_
  exact ⟨by omega, .group hopening hclosing (by rw [hkind, hopens]) (by rw [hkind', hcloses]) hnested⟩

section

variable (hc : c.InOrder) (hp : 2 ≤ p) (h : ∀ q, p < q → c.Advances q)
include hc hp h

theorem ends_array : c.array.Ends p fun _ q => p < q ∧ c.Nested p q := by
  rw [array, run_eq, step]
  exact ends_bracketed hc hp rfl rfl (ends_bracketLoop c.arrayRound .rbracket (p + 1) arrayLoop_eq
    (fun es q hq => ends_arrayRound (h q hq) es) []) .array

theorem ends_object : c.object.Ends p fun _ q => p < q ∧ c.Nested p q := by
  rw [object, run_eq, step]
  exact ends_bracketed hc hp rfl rfl (ends_bracketLoop c.objectRound .rbrace (p + 1) objectLoop_eq
    (fun ps q hq => ends_objectRound (h q hq) ps) []) .object

/-- A literal moves on, and without one nothing or a name was stepped over. -/
theorem ends_literal? {first : Token} (hfirst : c.tokens[p]? = some first) :
    (c.literal? first).Ends p fun r q => c.Nested p q ∧ (r.isSome = true → p < q) := by
  have hspan : first.kind.opens? = none → first.kind.closes? = none → ∀ make : Span → Expr,
      (do return some (make (← c.span first.start first.stop)) : Descent (Option Expr)).Ends (p + 1)
        fun r q => c.Nested p q ∧ (r.isSome = true → p < q) := by
    intro hopens hcloses make
    rw [ends_bind]
    exact ends_span hc hp (Nat.le_refl p) hfirst hfirst fun _ =>
      (ends_pure _).2 ⟨.single hfirst hopens hcloses, fun _ => Nat.lt_succ_self p⟩
  rw [literal?, run_eq, step]
  split
  · rename_i hkind
    rw [ends_bind, ends_some (outcome_bump hfirst)]
    exact hspan (by rw [hkind]; rfl) (by rw [hkind]; rfl) _
  · rename_i hkind
    rw [ends_bind, ends_some (outcome_bump hfirst)]
    exact hspan (by rw [hkind]; rfl) (by rw [hkind]; rfl) _
  · rename_i hkind
    rw [ends_bind, ends_some (outcome_bump hfirst)]
    split
    · exact hspan (by rw [hkind]; rfl) (by rw [hkind]; rfl) _
    · refine (ends_pure _).2 ⟨.single hfirst (by rw [hkind]; rfl) (by rw [hkind]; rfl), fun hnone => ?_⟩
      cases hnone
  · rw [ends_bind]
    exact (ends_array hc hp h).mono fun e q hq => (ends_pure _).2 ⟨hq.2, fun _ => hq.1⟩
  · rw [ends_bind]
    exact (ends_object hc hp h).mono fun e q hq => (ends_pure _).2 ⟨hq.2, fun _ => hq.1⟩
  · exact (ends_pure _).2 ⟨.here, fun hnone => by cases hnone⟩

theorem ends_expr : c.expr.Ends p fun _ q => p < q ∧ c.Nested p q := by
  rw [expr, run_eq, step, ends_bind, ends_get, ends_bind, ends_peek?]
  cases hfirst : c.tokens[p]? with
  | none => exact ends_failure
  | some first =>
      dsimp only
      rw [ends_bind]
      refine (ends_literal? hc hp h hfirst).mono fun r q hq => ?_
      obtain ⟨hnested, hsome⟩ := hq
      rw [ends_bind, ends_atDelimiter]
      split
      · exact (ends_pure _).2 ⟨hsome rfl, hnested⟩
      · rw [ends_bind, ends_get]
        split
        · exact ends_failure
        · rename_i hmoved
          refine ends_skippedFrom hc hp hfirst hnested ?_
          have := hnested.le
          by_cases hq : q = p
          · exact .inr (by simpa [hq] using hmoved)
          · exact .inl (by omega)

theorem ends_element : c.element.Ends p fun _ q => p < q ∧ c.Nested p q := by
  rw [element, run_eq, step, ends_bind, ends_peek?]
  cases hfirst : c.tokens[p]? with
  | none => exact ends_failure
  | some first =>
      dsimp only
      split
      · rename_i hspread
        rw [ends_bind, ends_some (outcome_bump hfirst), ends_bind]
        refine (h (p + 1) (Nat.lt_succ_self p)).expr.mono fun e q hq => ?_
        have hnested : c.Nested p q :=
          (Nested.single hfirst (by rw [hspread]; rfl) (by rw [hspread]; rfl)).trans hq.2
        have hpq : p < q := Nat.lt_of_succ_lt hq.1
        rw [ends_bind]
        exact ends_spanFrom hc hp hpq (hnested.le_length_of_lt hpq) hfirst fun _ =>
          (ends_pure _).2 ⟨hpq, hnested⟩
      · exact ends_expr hc hp h

end

/-- The key of a property moves on. -/
theorem ends_propertyKey {first : Token} (hfirst : c.tokens[p]? = some first) :
    (c.propertyKey first).Ends p fun _ q => p < q ∧ c.Nested p q := by
  rw [propertyKey, run_eq, step]
  split
  · rename_i hkey
    rw [ends_bind, ends_bump]
    refine fun t ht => (ends_pure _).2 ⟨Nat.lt_succ_self p, .single hfirst ?_ ?_⟩
    · cases hkind : first.kind <;> first | rfl | simp [Token.key?, hkind] at hkey
    · cases hkind : first.kind <;> first | rfl | simp [Token.key?, hkind] at hkey
  · split
    · rename_i hkind
      rw [ends_bind, ends_some (outcome_bump hfirst), ends_bind]
      refine (ends_skip []).mono fun _ q hq => ?_
      rw [ends_bind, ends_expect]
      intro closing hclosing hkind'
      have hpq : p < q := hq.1.le
      exact (ends_pure _).2 ⟨by omega, .group hfirst hclosing (by rw [hkind]; rfl) (by rw [hkind']; rfl) hq.1⟩
    · exact ends_failure

/-- What follows the key of a property may be nothing. -/
theorem ends_propertyValue (hc : c.InOrder) (hp : 2 ≤ p) {first : Token} (hfirst : c.tokens[p]? = some first)
    (hpq : p < q) (h : ∀ r, q < r → c.Advances r) :
    (c.propertyValue first).Ends q fun _ r => c.Nested q r := by
  rw [propertyValue, run_eq, step, ends_bind, ends_accept]
  split
  · rename_i hcolon
    obtain ⟨colon, ht, hkind⟩ := Option.map_eq_some_iff.1 hcolon
    rw [if_pos rfl]
    refine (h (q + 1) (Nat.lt_succ_self q)).expr.mono fun e r hr => ?_
    exact (Nested.single ht (by rw [hkind]; rfl) (by rw [hkind]; rfl)).trans hr.2
  · rw [if_neg (by decide), ends_bind, ends_atDelimiter]
    split
    · split
      · rw [ends_bind]
        exact ends_span hc hp (Nat.le_refl p) hfirst hfirst fun _ => (ends_pure _).2 .here
      · exact ends_failure
    · rename_i hdelimiter
      rw [ends_bind, ends_peek?]
      cases ht : c.tokens[q]? with
      | none => exact ends_failure
      | some t =>
          have hskipped := ends_skippedFrom hc (Nat.le_trans hp (Nat.le_of_lt hpq)) ht .here
            (.inr (by simpa using hdelimiter))
          exact hskipped.mono fun e r hr => hr.2

theorem ends_property (hc : c.InOrder) (hp : 2 ≤ p) (h : ∀ q, p < q → c.Advances q) :
    c.property.Ends p fun _ q => p < q ∧ c.Nested p q := by
  rw [property, run_eq, step, ends_bind, ends_peek?]
  cases hfirst : c.tokens[p]? with
  | none => exact ends_failure
  | some first =>
      dsimp only
      split
      · rw [ends_bind]
        exact (ends_element hc hp h).mono fun value q hq => (ends_pure _).2 hq
      · rw [ends_bind]
        refine (ends_propertyKey hfirst).mono fun _ q hq => ?_
        rw [ends_bind]
        refine (ends_propertyValue hc hp hfirst hq.1 fun r hr => h r (by omega)).mono fun value r hr => ?_
        have hpr : p < r := Nat.lt_of_lt_of_le hq.1 hr.le
        have hnested : c.Nested p r := hq.2.trans hr
        rw [ends_bind]
        exact ends_spanFrom hc hp hpr (hnested.le_length_of_lt hpr) hfirst fun _ =>
          (ends_pure _).2 ⟨hpr, hnested⟩

/-- Behind the last token nothing is read. -/
theorem advances_of_length_le (hp : c.tokens.length ≤ p) : c.Advances p := by
  have hnone : c.tokens[p]? = none := List.getElem?_eq_none hp
  refine ⟨?_, ?_, ?_⟩
  · rw [expr, run_eq, step, ends_bind, ends_get, ends_bind, ends_peek?, hnone]
    exact ends_failure
  · rw [element, run_eq, step, ends_bind, ends_peek?, hnone]
    exact ends_failure
  · rw [property, run_eq, step, ends_bind, ends_peek?, hnone]
    exact ends_failure

/-- Every step ends, and moves on if it gives something: by what is promised at all later positions. -/
theorem advances (hc : c.InOrder) (hp : 2 ≤ p) : c.Advances p := by
  induction hk : c.tokens.length - p using Nat.strongRecOn generalizing p with
  | ind k ih =>
      by_cases hlength : c.tokens.length ≤ p
      · exact advances_of_length_le hlength
      · have hlater : ∀ q, p < q → c.Advances q := fun q hq => ih _ (by omega) (by omega) rfl
        exact ⟨ends_expr hc hp hlater, ends_element hc hp hlater, ends_property hc hp hlater⟩

/-- A round of the arguments reads one, unless the parenthesis that closes them stands there. -/
theorem ends_callRound (h : c.Advances p) (args : List Expr) : (c.callRound args).Ends p fun r q =>
    r.Is (fun _ => q = p + 1 ∧ ∃ t, c.tokens[p]? = some t ∧ t.kind = .rparen)
      (fun _ => p < q ∧ c.Nested p q) := by
  rw [callRound, run_eq, step, ends_bind, ends_accept]
  split
  · rename_i hclosing
    exact (ends_pure _).2 ⟨rfl, Option.map_eq_some_iff.1 hclosing⟩
  · rw [if_neg (by decide), ends_bind]
    refine h.expr.mono fun e q hq => ?_
    rw [ends_bind]
    refine (ends_separator _).mono fun _ r hr => (ends_pure _).2 ?_
    exact ⟨Nat.lt_of_lt_of_le hq.1 hr.le, hq.2.trans hr⟩

/-- A call ends. What it accepts is well nested up to the parenthesis that closes it, the last token. -/
theorem ends_call (hc : c.InOrder) : c.call.Ends 0 fun _ q => q = c.tokens.length ∧
    ∃ last, c.Nested 2 last ∧ q = last + 1 ∧ ∃ t, c.tokens[last]? = some t ∧ t.kind = .rparen := by
  have hloop : (c.callLoop []).Ends 2 fun _ q => ∃ last, c.Nested 2 last ∧ q = last + 1 ∧
      ∃ t, c.tokens[last]? = some t ∧ t.kind = .rparen := by
    refine ends_loop c.callRound id c.tokens.length 2 (fun _ p _ q => ∃ last, c.Nested p last ∧
      q = last + 1 ∧ ∃ t, c.tokens[last]? = some t ∧ t.kind = .rparen)
      callLoop_eq (fun args p hp => ?_) (Nat.le_refl 2) []
    refine (ends_callRound (advances hc hp) args).mono fun r q hr => ?_
    cases r with
    | ended args' => exact ⟨p, .here, hr⟩
    | again args' =>
        refine ⟨hr.1, hr.2.le_length_of_lt hr.1, ?_⟩
        rintro _ q' ⟨last, hnested, hclosing⟩
        exact ⟨last, hr.2.trans hnested, hclosing⟩
  rw [call, ends_bind, ends_expect]
  refine fun _ _ _ => ends_bind.2 (ends_expect.2 fun _ _ _ => ends_bind.2 (hloop.mono fun args q hq => ?_))
  rw [ends_bind, ends_get]
  split
  · rename_i hlength
    exact (ends_pure _).2 ⟨hlength, hq⟩
  · exact ends_failure

end CallTokens
end PugSize.Script
