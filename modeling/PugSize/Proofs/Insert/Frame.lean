import Mathlib
import PugSize.Session
import PugSize.Proofs.Mixin.LineEnds

/-!
The frame of an insert. A planned edit names the stretch between the parentheses of the located call,
applying it exchanges that stretch and nothing else, and a step that is refused leaves the document
alone.
-/

namespace PugSize

namespace Insert

variable {σ : Type}

/-- A plan made of two parts succeeds if the first does and the second does on its result. -/
theorem Plan.run_bind {α β : Type} (x : Plan σ α) (f : α → Plan σ β) (s : σ) :
    (x >>= f).run s =
      match x.run s with
      | (.ok a, s') => (f a).run s'
      | (.error e, s') => (.error e, s') := by
  have hstate {γ δ : Type} (m : StateM σ γ) (g : γ → StateM σ δ) :
      (m >>= g) s = g (m s).1 (m s).2 := rfl
  rw [ExceptT.run_bind, hstate]
  rcases x.run s with ⟨_ | a, s'⟩ <;> rfl

theorem Plan.bind_eq_ok {α β : Type} {x : Plan σ α} {f : α → Plan σ β} {s s' : σ} {b : β}
    (h : (x >>= f).run s = (.ok b, s')) :
    ∃ a t, x.run s = (.ok a, t) ∧ (f a).run t = (.ok b, s') := by
  rw [Plan.run_bind] at h
  split at h
  · rename_i a t hx
    exact ⟨a, t, hx, h⟩
  · cases h

/-- A plan that succeeds has located a call with a rule, and its edit is for the arguments. -/
theorem plan_eq_ok {b : Buffer} {request : SizeRequest} {registry : Registry}
    {resolve : Resolver σ} {lookups after : σ} {edit : CallEdit}
    (h : (plan b request registry resolve).run lookups = (.ok edit, after)) :
    ∃ call rule, MixinCall.locate? b request.cursor (names registry request) = some call ∧
      registry.lookup call.name = .rule rule ∧
      (intoShape resolve request call.arguments rule.shape).run lookups =
        (.ok edit.newText, after) ∧
      edit.name = call.name ∧ (edit.start, edit.stop) = call.argumentsExtent := by
  unfold plan at h
  split at h
  · rename_i call hlocate
    split at h
    · cases h
    · cases h
    · rename_i rule hlookup
      obtain ⟨newText, t, hshape, hedit⟩ := Plan.bind_eq_ok h
      cases hedit
      exact ⟨call, rule, hlocate, hlookup, hshape, rfl, rfl⟩
  · cases h

/-- The document around the edit that a plan makes: the call stands behind `front`, its arguments
are `inside` up to line terminators, and the edit reaches from the opening parenthesis to the
closing one. -/
theorem plan_parts {b : Buffer} {request : SizeRequest} {registry : Registry}
    {resolve : Resolver σ} {lookups after : σ} {edit : CallEdit}
    (h : (plan b request registry resolve).run lookups = (.ok edit, after)) :
    ∃ call front opening inside rest,
      MixinCall.locate? b request.cursor (names registry request) = some call ∧
      b.text = front ++ opening ++ inside ++ ')' :: rest ∧ opening.getLast? = some '(' ∧
      b.offsetOf call.start = .ok front.width ∧
      call.text = Buffer.dropReturns opening ++ call.arguments ++ [')'] ∧
      Buffer.dropReturns inside = call.arguments ∧
      b.offsetOf edit.start = .ok (front ++ opening).width ∧
      b.offsetOf edit.stop = .ok (front ++ opening ++ inside).width := by
  obtain ⟨call, rule, hlocate, -, -, -, hextent⟩ := plan_eq_ok h
  obtain ⟨front, opening, inside, rest, hdoc, hopening, hstart, htext, hinside, hparts⟩ :=
    MixinCall.locate?_parts hlocate
  rw [hparts, Prod.mk.injEq] at hextent
  refine ⟨call, front, opening, inside, rest, hlocate, hdoc, hopening, hstart, htext, hinside, ?_, ?_⟩
  · rw [hextent.1]
    have hcut : Buffer.CutsBetween (front ++ opening) (inside ++ ')' :: rest) := by
      intro hlast
      rw [List.getLast?_append, hopening] at hlast
      cases hlast
    exact Buffer.offsetOf_behind (by rw [hdoc]; simp) hcut
  · rw [hextent.2]
    apply Buffer.offsetOf_behind hdoc
    intro hlast
    exact ⟨')', rest, rfl, by decide⟩

end Insert

namespace Session

variable {σ : Type}

theorem carryOut_refused {s s' : Session σ} {edit : CallEdit} {refusal : Refusal}
    (h : s.carryOut edit = (.error refusal, s')) : s' = s := by
  unfold carryOut at h
  split at h <;> cases h
  rfl

theorem step_refused {registry : Registry} {resolve : Resolver σ} {s s' : Session σ} {next : Step}
    {refusal : Refusal} (h : step registry resolve s next = (.error refusal, s')) :
    s'.buffer = s.buffer := by
  cases next with
  | replace start stop new => rw [carryOut_refused h]
  | insert request =>
      rw [step] at h
      split at h
      · cases h
        rfl
      · rw [carryOut_refused h]

end Session

namespace Insert

variable {σ : Type}

/-- Whatever is looked up, a planned edit can be applied, and the document then has the new text, with
the line ends of the document, in place of what stood between the parentheses of the located call. A
step that is refused, in planning or in applying, leaves the document with its line ends as it was. -/
theorem insert_exchanges_arguments (b : Buffer) (registry : Registry) (resolve : Resolver σ)
    (lookups : σ) :
    (∀ (request : SizeRequest) (edit : CallEdit) (after : σ),
      (plan b request registry resolve).run lookups = (.ok edit, after) →
      ∃ call front opening inside rest new,
        MixinCall.locate? b request.cursor (names registry request) = some call ∧
        b.text = front ++ opening ++ inside ++ ')' :: rest ∧ opening.getLast? = some '(' ∧
        b.offsetOf call.start = .ok front.width ∧
        call.text = Buffer.dropReturns opening ++ call.arguments ++ [')'] ∧
        Buffer.dropReturns inside = call.arguments ∧ b.HasEnds edit.newText new ∧
        apply b edit = .ok { b with text := front ++ opening ++ new ++ ')' :: rest }) ∧
    ∀ (next : Session.Step) (refusal : Session.Refusal) (s : Session σ),
      Session.step registry resolve ⟨b, lookups⟩ next = (.error refusal, s) → s.buffer = b := by
  refine ⟨?_, fun next refusal s h => Session.step_refused h⟩
  intro request edit after h
  obtain ⟨call, front, opening, inside, rest, hlocate, hdoc, hopening, hstart, htext, hinside,
    hfirst, hlast⟩ := plan_parts h
  exact ⟨call, front, opening, inside, rest, _, hlocate, hdoc, hopening, hstart, htext, hinside,
    b.hasEnds_adapt edit.newText, Buffer.replace_middle edit.newText hdoc hfirst hlast⟩

theorem insert_exchanges_arguments_crlf :
    let b := Buffer.ofText "é\r\n+img(\r\n  'ü.png'\r\n)\r\n".toList
    let registry : Registry := ⟨Registry.fallbackRules, []⟩
    let resolve : Resolver Unit := fun _ => pure (.ok ⟨3, 4⟩)
    let request : SizeRequest := ⟨⟨1, 0⟩, .full, true, []⟩
    let edit : CallEdit := ⟨"img".toList, ⟨1, 5⟩, ⟨3, 0⟩, "\n  'ü.png', '', 3, 4\n".toList⟩
    let reversed : Session.Step := .replace ⟨1, 3⟩ ⟨1, 1⟩ []
    ((plan b request registry resolve).run () = (.ok edit, ()) ∧
      apply b edit = .ok ⟨"é\r\n+img(\r\n  'ü.png', '', 3, 4\r\n)\r\n".toList, true⟩ ∧
      ∃ call front opening inside rest new,
        MixinCall.locate? b request.cursor (names registry request) = some call ∧
        b.text = front ++ opening ++ inside ++ ')' :: rest ∧ opening.getLast? = some '(' ∧
        b.offsetOf call.start = .ok front.width ∧
        call.text = Buffer.dropReturns opening ++ call.arguments ++ [')'] ∧
        Buffer.dropReturns inside = call.arguments ∧ b.HasEnds edit.newText new ∧
        apply b edit = .ok { b with text := front ++ opening ++ new ++ ')' :: rest }) ∧
    Session.step registry resolve ⟨b, ()⟩ reversed =
      (.error (.range (.reversed ⟨1, 3⟩ ⟨1, 1⟩)), ⟨b, ()⟩) ∧ b = b := by
  intro b registry resolve request edit reversed
  have hplan : (plan b request registry resolve).run () = (.ok edit, ()) := by cbv
  have happlied : apply b edit = .ok ⟨"é\r\n+img(\r\n  'ü.png', '', 3, 4\r\n)\r\n".toList, true⟩ := by decide +kernel
  have hstep : Session.step registry resolve ⟨b, ()⟩ reversed =
      (.error (.range (.reversed ⟨1, 3⟩ ⟨1, 1⟩)), ⟨b, ()⟩) := by cbv
  obtain ⟨hinsert, hrefused⟩ := insert_exchanges_arguments b registry resolve ()
  exact ⟨⟨hplan, happlied, hinsert request edit () hplan⟩, hstep, hrefused reversed _ _ hstep⟩

end Insert
end PugSize
