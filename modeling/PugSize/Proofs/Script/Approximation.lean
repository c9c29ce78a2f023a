import Mathlib.Data.Nat.Find
import PugSize.Proofs.Script.Outcomes

/-!
What the descent gives, told by one step of it. Calls up to a depth approximate calls of any depth: where they
end, deeper ones give the same. A step keeps approximations, so what a call gives is what its step gives, by
what the calls in it give.
-/

namespace PugSize.Script

variable {α β : Type}

namespace Descent

theorem outcome_ext {x y : Descent α} (h : ∀ p, x.outcome p = y.outcome p) : x = y := funext h

/-- Whether the steps of a sequence do not end at a position up to one of them, and from it on give what a
step gives. -/
def Approximates (x : Nat → Descent α) (y : Descent α) : Prop :=
  ∀ p, ∃ n, ∀ m, (x m).outcome p = if n ≤ m then y.outcome p else none

namespace Approximates

variable {x : Nat → Descent α} {y z : Descent α}

theorem const (y : Descent α) : Approximates (fun _ => y) y :=
  fun _ => ⟨0, fun m => (if_pos (Nat.zero_le m)).symm⟩

theorem bind (h : Approximates x y) {f : Nat → α → Descent β} {g : α → Descent β}
    (hf : ∀ a, Approximates (fun n => f n a) (g a)) : Approximates (fun n => x n >>= f n) (y >>= g) := by
  intro p
  obtain ⟨n, hn⟩ := h p
  rcases hy : y.outcome p with - | fault | - | ⟨a, q⟩
  · exact ⟨n, fun m => by simp only [outcome_bind, hn, hy]; split <;> rfl⟩
  · exact ⟨n, fun m => by simp only [outcome_bind, hn, hy]; split <;> rfl⟩
  · exact ⟨n, fun m => by simp only [outcome_bind, hn, hy]; split <;> rfl⟩
  · -- Both the first step and the second one have to end.
    obtain ⟨n', hn'⟩ := hf a q
    refine ⟨max n n', fun m => ?_⟩
    simp only [outcome_bind, hn, hy]
    by_cases hm : n ≤ m
    · rw [if_pos hm]
      refine (hn' m).trans ?_
      simp only [Nat.max_le, hm, true_and]
      rfl
    · rw [if_neg hm, if_neg fun hle => hm (Nat.le_trans (Nat.le_max_left _ _) hle)]
      rfl

theorem ite {b : Prop} [Decidable b] {x' : Nat → Descent α} {y' : Descent α} (h : Approximates x y)
    (h' : Approximates x' y') :
    Approximates (fun n => if b then x n else x' n) (if b then y else y') := by
  split <;> assumption

theorem unique (hy : Approximates x y) (hz : Approximates x z) : y = z := by
  refine outcome_ext fun p => ?_
  obtain ⟨n, hn⟩ := hy p
  obtain ⟨n', hn'⟩ := hz p
  have h := (hn (max n n')).symm.trans (hn' (max n n'))
  rwa [if_pos (Nat.le_max_left _ _), if_pos (Nat.le_max_right _ _)] at h

theorem tail (h : Approximates x y) : Approximates (fun n => x (n + 1)) y := by
  intro p
  obtain ⟨n, hn⟩ := h p
  exact ⟨n - 1, fun m => by simp only [hn, Nat.sub_le_iff_le_add]⟩

end Approximates

/-- Whether a step gives what another one gives, where it ends. -/
def Below (x y : Descent α) : Prop := ∀ p, x.outcome p = none ∨ x.outcome p = y.outcome p

/-- A step below another one is an approximation of it, with the other one itself. -/
theorem below_iff {x y : Descent α} :
    Below x y ↔ Approximates (fun n => match n with | 0 => x | _ + 1 => y) y := by
  constructor
  · intro h p
    obtain hnone | heq := h p
    · refine ⟨1, fun m => ?_⟩
      cases m with
      | zero => exact hnone
      | succ m => exact (if_pos (Nat.le_add_left 1 m)).symm
    · refine ⟨0, fun m => ?_⟩
      cases m with
      | zero => exact heq
      | succ m => rfl
  · intro h p
    obtain ⟨n, hn⟩ := h p
    have h0 : x.outcome p = if n ≤ 0 then y.outcome p else none := hn 0
    split at h0
    · exact .inr h0
    · exact .inl h0

theorem approximates_limit {x : Nat → Descent α} (h : ∀ n, Below (x n) (x (n + 1))) :
    Approximates x (limit x) := by
  intro p
  have hlater : ∀ n m, n ≤ m → (x n).outcome p ≠ none → (x m).outcome p = (x n).outcome p := by
    intro n m hle hn
    induction hle with
    | refl => rfl
    | step hle ih => rw [← ih, ((h _ p).resolve_left (ih ▸ hn)).symm]
  by_cases hex : ∃ n, (x n).outcome p ≠ none
  · have hlimit : (limit x).outcome p = (x hex.choose).outcome p := dif_pos hex
    classical
    refine ⟨Nat.find hex, fun m => ?_⟩
    have hfirst := Nat.find_spec hex
    split
    · rename_i hle
      rw [hlimit, hlater _ m hle hfirst, hlater _ _ (Nat.find_min' hex hex.choose_spec) hfirst]
    · rename_i hlt
      exact not_not.1 (Nat.find_min hex (Nat.lt_of_not_le hlt))
  · have hnone : ∀ n, (x n).outcome p = none := fun n => not_not.1 fun hn => hex ⟨n, hn⟩
    have hlimit : (limit x).outcome p = none := dif_neg hex
    exact ⟨0, fun m => by rw [hnone, hlimit, ite_self]⟩

end Descent

namespace CallTokens

open Descent

variable {c : CallTokens}

/-- A step with approximations of its calls approximates the step with the calls themselves. -/
theorem step_approximates {x : Nat → {α : Type} → Call α → Descent α} {y : {α : Type} → Call α → Descent α}
    (h : ∀ {α : Type} (k : Call α), Approximates (fun n => x n k) (y k)) (k : Call α) :
    Approximates (fun n => c.step (x n) k) (c.step y k) := by
  cases k with
  | skip stack =>
      refine .bind (.const _) fun r => ?_
      cases r with
      | ended s => exact .const _
      | again s => exact h _
  | skippedFrom start => exact .bind (h _) fun _ => .const _
  | expr =>
      refine .bind (.const _) fun start => .bind (.const _) fun first => ?_
      cases first with
      | none => exact .const _
      | some first =>
          refine .bind (h _) fun literal => .bind (.const _) fun ended => ?_
          rcases literal with - | e <;> rcases ended with - | -
          · exact .bind (.const _) fun p => .ite (.const _) (h _)
          · exact .bind (.const _) fun p => .ite (.const _) (h _)
          · exact .bind (.const _) fun p => .ite (.const _) (h _)
          · exact .const _
  | literal? first =>
      obtain ⟨kind, text, start⟩ := first
      cases kind
      case lbracket => exact .bind (h _) fun _ => .const _
      case lbrace => exact .bind (h _) fun _ => .const _
      all_goals exact .const _
  | array => exact .bind (.const _) fun opening => .bind (h _) fun elements => .const _
  | arrayLoop elements =>
      refine .bind (h _) fun r => ?_
      cases r with
      | ended s => exact .const _
      | again s => exact h _
  | arrayRound elements =>
      refine .bind (.const _) fun first => ?_
      cases first with
      | none => exact .const _
      | some first => exact .ite (.const _) (.ite (.const _) (.bind (h _) fun e => .const _))
  | element =>
      refine .bind (.const _) fun first => ?_
      cases first with
      | none => exact .const _
      | some first => exact .ite (.bind (.const _) fun spread => .bind (h _) fun e => .const _) (h _)
  | object => exact .bind (.const _) fun opening => .bind (h _) fun props => .const _
  | objectLoop props =>
      refine .bind (h _) fun r => ?_
      cases r with
      | ended s => exact .const _
      | again s => exact h _
  | objectRound props =>
      refine .bind (.const _) fun first => ?_
      cases first with
      | none => exact .const _
      | some first => exact .ite (.const _) (.bind (h _) fun p => .const _)
  | property =>
      refine .bind (.const _) fun first => ?_
      cases first with
      | none => exact .const _
      | some first =>
          exact .ite (.bind (h _) fun value => .const _)
            (.bind (h _) fun _ => .bind (h _) fun value => .const _)
  | propertyKey first =>
      exact .ite (.const _) (.ite (.bind (.const _) fun _ => .bind (h _) fun _ => .const _) (.const _))
  | propertyValue first =>
      refine .bind (.const _) fun colon => .ite (h _) (.bind (.const _) fun ended => .ite (.const _) ?_)
      refine .bind (.const _) fun next => ?_
      cases next with
      | none => exact .const _
      | some t => exact h _
  | callRound args =>
      exact .bind (.const _) fun closed => .ite (.const _) (.bind (h _) fun e => .const _)
  | callLoop args =>
      refine .bind (h _) fun r => ?_
      cases r with
      | ended s => exact .const _
      | again s => exact h _

/-- Where calls up to a depth end, calls to one more give the same. -/
theorem upTo_below (depth : Nat) (k : Call α) : Below (c.upTo depth k) (c.upTo (depth + 1) k) := by
  induction depth generalizing α k with
  | zero => exact fun p => .inl rfl
  | succ depth ih =>
      refine below_iff.2 ?_
      have h := step_approximates (c := c) (x := fun n _ k => match n with
        | 0 => c.upTo depth k
        | _ + 1 => c.upTo (depth + 1) k) (fun k => below_iff.1 (ih k)) k
      refine Eq.mp (congrArg (Approximates · _) (funext fun n => ?_)) h
      cases n <;> rfl

theorem upTo_approximates (k : Call α) : Approximates (fun depth => c.upTo depth k) (c.run k) :=
  approximates_limit fun depth => upTo_below depth k

/-- What a call gives is what its step gives, with calls of any depth. -/
theorem run_eq (k : Call α) : c.run k = c.step c.run k :=
  (upTo_approximates k).tail.unique (step_approximates upTo_approximates k)

theorem skip_eq (stack : List Bracket) :
    c.skip stack = c.skipRound stack >>= fun r => r.follow (fun _ => ()) c.skip := by
  rw [skip, run_eq, step]
  congr 1
  funext r
  cases r <;> rfl

theorem arrayLoop_eq (elements : List Expr) :
    c.arrayLoop elements = c.arrayRound elements >>= fun r => r.follow id c.arrayLoop := by
  rw [arrayLoop, run_eq, step]
  congr 1
  funext r
  cases r <;> rfl

theorem objectLoop_eq (props : List (Property Expr)) :
    c.objectLoop props = c.objectRound props >>= fun r => r.follow id c.objectLoop := by
  rw [objectLoop, run_eq, step]
  congr 1
  funext r
  cases r <;> rfl

theorem callLoop_eq (args : List Expr) :
    c.callLoop args = c.callRound args >>= fun r => r.follow id c.callLoop := by
  rw [callLoop, run_eq, step]
  congr 1
  funext r
  cases r <;> rfl

end CallTokens
end PugSize.Script
