import PugSize.Script.Descent

/-!
What the steps of a descent give. The outcome of two steps is that of the first one and then that of the
second. A step that ends, and does nothing that it must not, gives what is claimed of it or refuses; this
is told of each step by what it is told of the steps that it is made of, and of a loop by its rounds.
-/

namespace PugSize.Script

/-- What a step may give at a position. -/
abbrev Outcome (α : Type) := Option (Except Fault (Option (α × Nat)))

variable {α β σ : Type}

/-- A step that ends and does nothing that it must not: it refuses, or gives something and a position. -/
def found (r : Option (α × Nat)) : Outcome α := some (.ok r)

def Outcome.andThen (o : Outcome α) (f : α → Nat → Outcome β) : Outcome β :=
  match o with
  | none => none
  | some (.error fault) => some (.error fault)
  | some (.ok none) => found none
  | some (.ok (some (a, p))) => f a p

@[simp] theorem andThen_none (f : α → Nat → Outcome β) : (found none).andThen f = found none := rfl

@[simp] theorem andThen_some (a : α) (p : Nat) (f : α → Nat → Outcome β) :
    (found (some (a, p))).andThen f = f a p := rfl

/-- One claim about the last round of a loop, and another one about each round before. -/
def Round.Is (ended again : σ → Prop) : Round σ → Prop
  | .ended s => ended s
  | .again s => again s

@[simp] theorem Round.is_ended {ended again : σ → Prop} {s : σ} :
    (Round.ended s).Is ended again ↔ ended s := Iff.rfl

@[simp] theorem Round.is_again {ended again : σ → Prop} {s : σ} :
    (Round.again s).Is ended again ↔ again s := Iff.rfl

/-- What a loop does behind a round. -/
def Round.follow (r : Round σ) (finish : σ → α) (loop : σ → Descent α) : Descent α :=
  match r with
  | .ended s => pure (finish s)
  | .again s => loop s

@[simp] theorem Round.follow_ended (s : σ) (finish : σ → α) (loop : σ → Descent α) :
    (Round.ended s).follow finish loop = pure (finish s) := rfl

namespace Descent

def outcome (x : Descent α) (p : Nat) : Outcome α := x p

@[simp] theorem outcome_pure (a : α) (p : Nat) : (pure a : Descent α).outcome p = found (some (a, p)) := rfl

@[simp] theorem outcome_failure (p : Nat) : (failure : Descent α).outcome p = found none := rfl

@[simp] theorem outcome_get (p : Nat) : (get : Descent Nat).outcome p = found (some (p, p)) := rfl

@[simp] theorem outcome_set (p q : Nat) : (set q : Descent PUnit).outcome p = found (some (⟨⟩, q)) := rfl

@[simp] theorem outcome_bind (x : Descent α) (f : α → Descent β) (p : Nat) :
    (x >>= f).outcome p = (x.outcome p).andThen fun a q => (f a).outcome q := by
  change (x p >>= fun r => f r.1 r.2) = Outcome.andThen (x p) fun a q => f a q
  rcases x p with - | fault | - | ⟨a, q⟩ <;> rfl

@[simp] theorem outcome_map (g : α → β) (x : Descent α) (p : Nat) :
    (g <$> x).outcome p = (x.outcome p).andThen fun a q => found (some (g a, q)) := by
  rw [← bind_pure_comp, outcome_bind]
  rfl

/-- Whether a step ends, does nothing that it must not, and gives only what is claimed. -/
def Ends (x : Descent α) (p : Nat) (post : α → Nat → Prop) : Prop :=
  ∃ r, x.outcome p = found r ∧ ∀ a q, r = some (a, q) → post a q

section

variable {x : Descent α} {f : α → Descent β} {p : Nat} {post : α → Nat → Prop}

theorem Ends.mono (h : x.Ends p post) {post' : α → Nat → Prop} (hpost : ∀ a q, post a q → post' a q) :
    x.Ends p post' := by
  obtain ⟨r, hr, hall⟩ := h
  exact ⟨r, hr, fun a q heq => hpost a q (hall a q heq)⟩

theorem ends_of_outcome {r : Option (α × Nat)} (h : x.outcome p = found r) :
    x.Ends p post ↔ ∀ a q, r = some (a, q) → post a q := by
  constructor
  · rintro ⟨r', hr', hall⟩
    rw [h, found, found, Option.some.injEq, Except.ok.injEq] at hr'
    exact hr' ▸ hall
  · exact fun hall => ⟨r, h, hall⟩

theorem ends_some {a : α} {q : Nat} (h : x.outcome p = found (some (a, q))) : x.Ends p post ↔ post a q := by
  rw [ends_of_outcome h]
  exact ⟨fun hall => hall a q rfl, fun hpost b r heq => by cases heq; exact hpost⟩

theorem ends_none (h : x.outcome p = found none) : x.Ends p post :=
  (ends_of_outcome h).2 nofun

@[simp] theorem ends_pure (a : α) : (pure a : Descent α).Ends p post ↔ post a p := ends_some rfl

@[simp] theorem ends_failure : (failure : Descent α).Ends p post := ends_none rfl

@[simp] theorem ends_get {post : Nat → Nat → Prop} : (get : Descent Nat).Ends p post ↔ post p p :=
  ends_some rfl

@[simp] theorem ends_bind {post : β → Nat → Prop} :
    (x >>= f).Ends p post ↔ x.Ends p fun a q => (f a).Ends q post := by
  constructor
  · rintro ⟨r, hr, hall⟩
    rw [outcome_bind] at hr
    rcases hx : x.outcome p with - | fault | - | ⟨a, q⟩
    · rw [hx] at hr
      cases hr
    · rw [hx] at hr
      cases hr
    · exact ends_none hx
    · rw [hx] at hr
      exact (ends_some hx).2 ⟨r, hr, hall⟩
  · rintro ⟨r, hr, hall⟩
    cases r with
    | none => exact ends_none (by rw [outcome_bind, hr, andThen_none])
    | some found =>
        obtain ⟨a, q⟩ := found
        obtain ⟨r', hr', hall'⟩ := hall a q rfl
        exact ⟨r', by rw [outcome_bind, hr, andThen_some, hr'], hall'⟩

@[simp] theorem ends_map {g : α → β} {post : β → Nat → Prop} :
    (g <$> x).Ends p post ↔ x.Ends p fun a q => post (g a) q := by
  rw [← bind_pure_comp, ends_bind]
  simp only [ends_pure]

end

/-- A loop ends if each of its rounds ends, the last one with what is claimed of the loop, and each other
one further on, where the claim about what follows gives that about the round. -/
theorem ends_loop {loop : σ → Descent α} (round : σ → Descent (Round σ)) (finish : σ → α) (n first : Nat)
    (post : σ → Nat → α → Nat → Prop)
    (hloop : ∀ s, loop s = round s >>= fun r => r.follow finish loop)
    (hround : ∀ s p, first ≤ p → (round s).Ends p fun r q =>
      r.Is (fun s' => post s p (finish s') q)
        (fun s' => p < q ∧ q ≤ n ∧ ∀ a q', post s' q a q' → post s p a q'))
    {p : Nat} (hp : first ≤ p) (s : σ) : (loop s).Ends p (post s p) := by
  induction hk : n - p using Nat.strongRecOn generalizing p s with
  | ind k ih =>
      rw [hloop, ends_bind]
      refine (hround s p hp).mono fun r q hr => ?_
      cases r with
      | ended s' => exact (ends_pure _).2 hr
      | again s' =>
          obtain ⟨hlt, hle, hpost⟩ := hr
          exact (ih (n - q) (by omega) (by omega) s' rfl).mono hpost

end Descent

namespace CallTokens

open Descent

/-- Whether an expression ends at a position: a delimiter stands there, or nothing. -/
def delimitedAt (c : CallTokens) (p : Nat) : Bool := c.tokens[p]?.all fun t => t.kind.delimits

theorem delimitedAt_token {c : CallTokens} {p : Nat} {t : Token} (ht : c.tokens[p]? = some t) :
    c.delimitedAt p = t.kind.delimits := by
  rw [delimitedAt, ht, Option.all_some]

theorem delimitedAt_none {c : CallTokens} {p : Nat} (ht : c.tokens[p]? = none) : c.delimitedAt p = true := by
  rw [delimitedAt, ht, Option.all_none]

variable {c : CallTokens} {p : Nat} {t : Token}

@[simp] theorem outcome_peek? (c : CallTokens) (p : Nat) :
    c.peek?.outcome p = found (some (c.tokens[p]?, p)) := rfl

@[simp] theorem outcome_atDelimiter (c : CallTokens) (p : Nat) :
    c.atDelimiter.outcome p = found (some (c.delimitedAt p, p)) := rfl

theorem outcome_bump (h : c.tokens[p]? = some t) : c.bump.outcome p = found (some (t, p + 1)) := by
  simp [bump, h]

theorem outcome_accept {kind : TokenKind} (ht : c.tokens[p]? = some t) (h : t.kind = kind) :
    (c.accept kind).outcome p = found (some (true, p + 1)) := by
  simp [accept, ht, h, outcome_bump ht]

theorem outcome_accept_other {kind : TokenKind} (h : c.tokens[p]?.map Token.kind ≠ some kind) :
    (c.accept kind).outcome p = found (some (false, p)) := by
  rw [accept, outcome_bind, outcome_peek?, andThen_some]
  cases ht : c.tokens[p]? with
  | none => rfl
  | some t =>
      rw [ht, Option.map_some, ne_eq, Option.some.injEq] at h
      dsimp only
      rw [if_neg h, outcome_pure]

theorem outcome_expect {kind : TokenKind} (ht : c.tokens[p]? = some t) (h : t.kind = kind) :
    (c.expect kind).outcome p = found (some (t, p + 1)) := by
  simp [expect, ht, h, outcome_bump ht]

theorem outcome_expect_other {kind : TokenKind} (ht : c.tokens[p]? = some t) (h : t.kind ≠ kind) :
    (c.expect kind).outcome p = found none := by
  simp [expect, ht, h]

theorem outcome_span {start stop : Nat} (hbase : c.base ≤ start) (hle : start ≤ stop) (p : Nat) :
    (c.span start stop).outcome p = found (some (⟨start - c.base, stop - c.base⟩, p)) := by
  rw [span, if_neg (by omega), if_neg (by omega), if_neg (by omega), outcome_pure]

theorem outcome_lastEnd (h : c.tokens[p]? = some t) :
    c.lastEnd.outcome (p + 1) = found (some (t.stop, p + 1)) := by
  simp [lastEnd, h]

@[simp] theorem ends_peek? {post : Option Token → Nat → Prop} :
    c.peek?.Ends p post ↔ post c.tokens[p]? p := ends_some rfl

@[simp] theorem ends_atDelimiter {post : Bool → Nat → Prop} :
    c.atDelimiter.Ends p post ↔ post (c.delimitedAt p) p := ends_some rfl

@[simp] theorem ends_bump {post : Token → Nat → Prop} :
    c.bump.Ends p post ↔ ∀ t, c.tokens[p]? = some t → post t (p + 1) := by
  cases ht : c.tokens[p]? with
  | none => simp [bump, ht]
  | some t => simp [ends_some (outcome_bump ht)]

@[simp] theorem ends_expect {kind : TokenKind} {post : Token → Nat → Prop} :
    (c.expect kind).Ends p post ↔ ∀ t, c.tokens[p]? = some t → t.kind = kind → post t (p + 1) := by
  cases ht : c.tokens[p]? with
  | none => simp [expect, ht]
  | some t =>
      by_cases hkind : t.kind = kind
      · simp [ends_some (outcome_expect ht hkind), hkind]
      · simp [ends_none (outcome_expect_other ht hkind), hkind]

@[simp] theorem ends_accept {kind : TokenKind} {post : Bool → Nat → Prop} :
    (c.accept kind).Ends p post ↔
      if c.tokens[p]?.map Token.kind = some kind then post true (p + 1) else post false p := by
  split
  · rename_i h
    obtain ⟨t, ht, hkind⟩ := Option.map_eq_some_iff.1 h
    exact ends_some (outcome_accept ht hkind)
  · rename_i h
    exact ends_some (outcome_accept_other h)

end CallTokens
end PugSize.Script
