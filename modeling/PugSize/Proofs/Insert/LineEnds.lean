import PugSize.Proofs.Insert.Characters
import PugSize.Proofs.LineDiff.Visible
import PugSize.Proofs.Mixin.LineEnds

/-!
Sessions on two documents that differ in their line ends only. Every step has the same answer on both,
looks up the same images and shows the same changes, and it leaves two documents that differ in their
line ends only.
-/

namespace PugSize

namespace LineDiff

theorem textLines_addReturns {t : Text} (h : '\r' ∉ t) :
    textLines (Buffer.addReturns t) = textLines t := by
  rw [textLines_inj, evened, evened, Buffer.dropReturns_addReturns, Buffer.dropReturns_of_no_return h]

theorem render_addReturns (color : Bool) {old new : Text} (hold : '\r' ∉ old) (hnew : '\r' ∉ new) :
    render color (Buffer.addReturns old) (Buffer.addReturns new) = render color old new := by
  rw [render, render, textLines_addReturns hold, textLines_addReturns hnew]
  simp only [Buffer.addReturns_inj]

end LineDiff

/-- Whether no key that a rule has for sizes holds a carriage return. -/
def Registry.KeysWithoutReturns (registry : Registry) : Prop :=
  ∀ rule ∈ registry.rules, ∀ key ∈ rule.shape.sizeKeys, '\r' ∉ key

instance (registry : Registry) : Decidable registry.KeysWithoutReturns :=
  inferInstanceAs (Decidable (∀ rule ∈ registry.rules, ∀ key ∈ rule.shape.sizeKeys, '\r' ∉ key))

namespace Insert

variable {σ : Type} {registry : Registry} {resolve : Resolver σ} {b : Buffer}

theorem plan_withReturns (h : b.LineFed) (request : SizeRequest) :
    plan b.withReturns request registry resolve = plan b request registry resolve := by
  rw [plan, plan, MixinCall.locate?_lines h.lines_withReturns]

theorem newText_of_plan (h : b.LineFed) (hkeys : registry.KeysWithoutReturns) {request : SizeRequest}
    {s s' : σ} {edit : CallEdit} (hplan : (plan b request registry resolve).run s = (.ok edit, s')) :
    '\r' ∉ edit.newText := by
  obtain ⟨call, rule, hlocate, hlookup, hshape, -, -⟩ := plan_eq_ok hplan
  obtain ⟨call', front, opening, inside, rest, hlocate', hdoc, -, -, -, hinside, -, -⟩ :=
    plan_parts hplan
  obtain rfl : call = call' := Option.some.inj (hlocate.symm.trans hlocate')
  have hrule : rule ∈ registry.rules := by
    unfold Registry.lookup at hlookup
    split at hlookup
    · rename_i rule' hfind
      rw [Lookup.rule.injEq] at hlookup
      subst hlookup
      exact List.mem_of_find?_eq_some hfind
    · split at hlookup <;> cases hlookup
  intro hc
  obtain hc | ⟨key, hkey, hc⟩ | hc | hc := written_intoShape hshape hc
  · have hreturn : '\r' ∉ inside := fun hr => h.text (by rw [hdoc]; simp [hr])
    rw [← hinside, Buffer.dropReturns_of_no_return hreturn] at hc
    exact hreturn hc
  · exact hkeys rule hrule key hkey hc
  · exact absurd hc (by decide)
  · exact absurd hc (by decide)

end Insert

namespace Session

variable {σ : Type}

/-- The session on the document with a carriage return before every line feed. -/
def withReturns (s : Session σ) : Session σ := ⟨s.buffer.withReturns, s.lookups⟩

/-- Whether a plain exchange brings no carriage return. -/
def Step.WithoutReturns : Step → Prop
  | .insert _ => True
  | .replace _ _ new => '\r' ∉ new

instance (next : Step) : Decidable next.WithoutReturns :=
  match next with
  | .insert _ => inferInstanceAs (Decidable True)
  | .replace _ _ new => inferInstanceAs (Decidable ('\r' ∉ new))

variable {registry : Registry} {resolve : Resolver σ} {s : Session σ}

theorem carryOut_withReturns (h : s.buffer.LineFed) {edit : CallEdit} (hedit : '\r' ∉ edit.newText) :
    s.withReturns.carryOut edit = ((s.carryOut edit).1, (s.carryOut edit).2.withReturns) ∧
      (s.carryOut edit).2.buffer.LineFed := by
  obtain ⟨hreplace, hfed⟩ := h.replace hedit edit.start edit.stop
  simp only [carryOut, Insert.apply, withReturns] at hreplace ⊢
  rw [hreplace]
  cases hb : s.buffer.replace edit.start edit.stop edit.newText with
  | error e => exact ⟨rfl, h⟩
  | ok b => exact ⟨rfl, hfed b hb⟩

/-- One step commutes with adding carriage returns. -/
theorem step_withReturns (hkeys : registry.KeysWithoutReturns) (h : s.buffer.LineFed) {next : Step}
    (hnext : next.WithoutReturns) :
    step registry resolve s.withReturns next =
        ((step registry resolve s next).1, (step registry resolve s next).2.withReturns) ∧
      (step registry resolve s next).2.buffer.LineFed := by
  cases next with
  | replace start stop new => exact carryOut_withReturns h hnext
  | insert request =>
      have hplan := @Insert.plan_withReturns _ registry resolve _ h request
      simp only [step, withReturns] at hplan ⊢
      rw [hplan]
      split
      · exact ⟨rfl, h⟩
      · rename_i edit lookups hrun
        exact carryOut_withReturns (s := ⟨s.buffer, lookups⟩) h
          (Insert.newText_of_plan h hkeys hrun)

/-- What a step shows: its answer, the changes to the document, and what has been looked up. -/
structure Shown (σ : Type) where
  answer : Except Refusal CallEdit
  changes : String
  lookups : σ

/-- What the steps of a session show, each with the document after it. -/
def transcript (color : Bool) (registry : Registry) (resolve : Resolver σ) (s : Session σ) :
    List Step → List (Shown σ × Text)
  | [] => []
  | next :: later =>
    let (answer, after) := step registry resolve s next
    (⟨answer, LineDiff.render color s.buffer.text after.buffer.text, after.lookups⟩,
      after.buffer.text) :: transcript color registry resolve after later

theorem transcript_run (color : Bool) (hkeys : registry.KeysWithoutReturns) (h : s.buffer.LineFed)
    {steps : List Step} (hsteps : ∀ next ∈ steps, next.WithoutReturns) :
    transcript color registry resolve s.withReturns steps =
      (transcript color registry resolve s steps).map fun (shown, document) =>
        (shown, Buffer.addReturns document) := by
  induction steps generalizing s with
  | nil => rfl
  | cons next later ih =>
      obtain ⟨hstep, hafter⟩ := @step_withReturns _ _ resolve _ hkeys h _
        (hsteps next List.mem_cons_self)
      have hlater := ih hafter fun m hm => hsteps m (List.mem_cons_of_mem _ hm)
      have hchanges := LineDiff.render_addReturns color h.text hafter.text
      rw [transcript, transcript, hstep, List.map_cons]
      simp only [hlater]
      congr 3

/-- A session on a document with line feeds only, and the same steps on the document with carriage
returns before them. Step by step both show the same, whatever the resolver keeps of the images that
it was asked for, and the documents differ in nothing but the carriage returns. -/
theorem transcript_addReturns (color : Bool) (registry : Registry) (resolve : Resolver σ)
    (lookups : σ) (document : Text) (steps : List Step) (hline : '\n' ∈ document)
    (hreturn : '\r' ∉ document) (hkeys : registry.KeysWithoutReturns)
    (hsteps : ∀ next ∈ steps, next.WithoutReturns) :
    transcript color registry resolve ⟨Buffer.ofText (Buffer.addReturns document), lookups⟩ steps =
      (transcript color registry resolve ⟨Buffer.ofText document, lookups⟩ steps).map
        fun (shown, document) => (shown, Buffer.addReturns document) := by
  rw [Buffer.ofText_addReturns hline]
  exact transcript_run (s := ⟨Buffer.ofText document, lookups⟩) color hkeys
    (Buffer.lineFed_ofText hreturn) hsteps

theorem transcript_addReturns_steps :
    let document := "p\n+img(\n'a.png')\n".toList
    let registry : Registry := ⟨Registry.fallbackRules, []⟩
    let resolve : Resolver (List Text) := fun image asked => (.ok ⟨3, 4⟩, asked ++ [image])
    let steps : List Step :=
      [.insert ⟨⟨2, 3⟩, .full, true, []⟩, .insert ⟨⟨0, 0⟩, .full, true, []⟩,
        .replace ⟨9, 0⟩ ⟨9, 1⟩ [], .replace ⟨2, 7⟩ ⟨2, 3⟩ [], .replace ⟨0, 5⟩ ⟨1, 0⟩ "é\n\n".toList]
    step registry resolve ⟨Buffer.ofText document, []⟩ (.insert ⟨⟨2, 3⟩, .full, true, []⟩) =
      (.ok ⟨"img".toList, ⟨1, 5⟩, ⟨2, 7⟩, "\n'a.png', '', 3, 4".toList⟩,
        ⟨Buffer.ofText "p\n+img(\n'a.png', '', 3, 4)\n".toList, ["a.png".toList]⟩) ∧
    transcript false registry resolve ⟨Buffer.ofText "p\r\n+img(\r\n'a.png')\r\n".toList, []⟩ steps =
      (transcript false registry resolve ⟨Buffer.ofText document, []⟩ steps).map
        fun (shown, document) => (shown, Buffer.addReturns document) := by
  have hstep : step ⟨Registry.fallbackRules, []⟩
      (fun image asked => (.ok ⟨3, 4⟩, asked ++ [image]) : Resolver (List Text))
      ⟨Buffer.ofText "p\n+img(\n'a.png')\n".toList, []⟩ (.insert ⟨⟨2, 3⟩, .full, true, []⟩) =
        (.ok ⟨"img".toList, ⟨1, 5⟩, ⟨2, 7⟩, "\n'a.png', '', 3, 4".toList⟩,
          ⟨Buffer.ofText "p\n+img(\n'a.png', '', 3, 4)\n".toList, ["a.png".toList]⟩) := by cbv
  intro document registry resolve steps
  refine ⟨hstep, transcript_addReturns false registry resolve [] document steps (by simp [document])
    (by simp [document]) ?_ ?_⟩
  · decide
  · decide

end Session
end PugSize
