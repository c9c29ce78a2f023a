import PugSize.Proofs.Insert.Frame
import PugSize.Proofs.LineDiff.Visible
import PugSize.Proofs.Mixin.LineEnds

/-!
What the preview of a step shows. A step that exchanges more than line ends has a marked line in its
preview, and for an insert that is told from the arguments alone. A step can also exchange line ends
only, since the text that it puts in has those of the document, and then the preview is empty.
-/

namespace PugSize

namespace LineDiff

theorem evened_append {a b : Text} (h : a.getLast? = some '\r' → b.head? ≠ some '\n')
    (hb : Buffer.dropReturns b ≠ []) : evened (a ++ b) = Buffer.dropReturns a ++ evened b := by
  rw [evened, Buffer.dropReturns_append h, List.getLast?_append_of_ne_nil _ hb, evened]
  split
  · rfl
  · rw [List.append_assoc]

/-- Between parentheses, only what stands there matters. -/
theorem evened_arguments {front opening inside rest : Text} (hopening : opening.getLast? = some '(') :
    evened (front ++ opening ++ inside ++ ')' :: rest) =
      Buffer.dropReturns (front ++ opening) ++ (Buffer.dropReturns inside ++ evened (')' :: rest)) := by
  have hlast : (front ++ opening).getLast? = some '(' := by
    rw [List.getLast?_append, hopening]
    rfl
  have hclosing : Buffer.dropReturns (')' :: rest) ≠ [] := by
    rw [Buffer.dropReturns, if_neg fun h => absurd h.1 (by decide)]
    exact List.cons_ne_nil _ _
  have hne : Buffer.dropReturns (inside ++ ')' :: rest) ≠ [] := by
    rw [Buffer.dropReturns_append fun _ => by simp]
    exact List.append_ne_nil_of_right_ne_nil _ hclosing
  rw [List.append_assoc, evened_append (by rw [hlast]; simp) hne, evened_append (fun _ => by simp) hclosing]

end LineDiff

namespace Session

open LineDiff

variable {σ : Type} {registry : Registry} {resolve : Resolver σ} {s s' : Session σ} {edit : CallEdit}

/-- An insert shows a change if and only if it has written something else than the arguments that it has
found, up to line ends. -/
theorem showsChange_insert {request : SizeRequest}
    (h : step registry resolve s (.insert request) = (.ok edit, s')) (color : Bool) :
    ∃ call, MixinCall.locate? s.buffer request.cursor (Insert.names registry request) = some call ∧
      (showsChange (render color s.buffer.text s'.buffer.text) = true ↔
        Buffer.dropReturns edit.newText ≠ call.arguments) := by
  rw [step] at h
  split at h
  · cases h
  · rename_i planned lookups hplan
    obtain ⟨call, front, opening, inside, rest, hlocate, hdoc, hopening, -, -, hinside, hfirst, hlast⟩ :=
      Insert.plan_parts hplan
    have happly : Insert.apply s.buffer planned = _ := Buffer.replace_middle planned.newText hdoc hfirst hlast
    rw [carryOut, happly] at h
    cases h
    refine ⟨call, hlocate, ?_⟩
    rw [showsChange_render, hdoc, evened_arguments hopening, evened_arguments hopening,
      Buffer.dropReturns_adapt, ne_eq, List.append_cancel_left_eq, List.append_cancel_right_eq, hinside,
      ne_comm]

/-- What the preview of a step shows. A line is marked if and only if the texts before and behind the step
differ in more than line ends. Of any other change the preview shows nothing, and does not say that there
is none; an insert makes such a change if the arguments have their sizes already. -/
theorem step_preview {next : Step} (h : step registry resolve s next = (.ok edit, s')) (color : Bool) :
    let preview := render color s.buffer.text s'.buffer.text
    (showsChange preview = true ↔ evened s.buffer.text ≠ evened s'.buffer.text) ∧
    (s.buffer.text ≠ s'.buffer.text → showsChange preview = false → preview = "") ∧
    ∀ request, next = .insert request → ∃ call,
      MixinCall.locate? s.buffer request.cursor (Insert.names registry request) = some call ∧
      (showsChange preview = true ↔ Buffer.dropReturns edit.newText ≠ call.arguments) := by
  intro preview
  refine ⟨showsChange_render color _ _, fun hne hshows => ?_, ?_⟩
  · refine render_of_same_lines color ?_ hne
    rwa [Bool.eq_false_iff, ne_eq, showsChange_of_lines, not_not] at hshows
  · rintro request rfl
    exact showsChange_insert h color

theorem step_preview_mixed :
    let b := Buffer.ofText "+img('a',\r\n'',\n1, 1)".toList
    let after : Buffer := ⟨"+img('a',\r\n'',\r\n1, 2)".toList, true⟩
    let edit : CallEdit := ⟨"img".toList, ⟨0, 5⟩, ⟨2, 4⟩, "'a',\n'',\n1, 2".toList⟩
    let registry : Registry := ⟨Registry.fallbackRules, []⟩
    let next : Step := .insert ⟨⟨0, 2⟩, .full, true, []⟩
    step registry (fun _ => pure (.ok ⟨1, 2⟩)) ⟨b, ()⟩ next = (.ok edit, ⟨after, ()⟩) ∧
      showsChange (render true b.text after.text) = true := by
  intro b after edit registry next
  have hstep : step registry (fun _ => pure (.ok ⟨1, 2⟩)) ⟨b, ()⟩ next = (.ok edit, ⟨after, ()⟩) := by
    cbv
  exact ⟨hstep, (step_preview hstep true).1.2 (by decide)⟩

/-- Changes that no preview shows: the line end of a call whose sizes are there already, and a line end
put behind the last line. -/
theorem step_preview_line_ends :
    let b := Buffer.ofText "+img('a',\r\n'',\n1, 2)".toList
    let after : Buffer := ⟨"+img('a',\r\n'',\r\n1, 2)".toList, true⟩
    let edit : CallEdit := ⟨"img".toList, ⟨0, 5⟩, ⟨2, 4⟩, "'a',\n'',\n1, 2".toList⟩
    let registry : Registry := ⟨Registry.fallbackRules, []⟩
    let insert : Step := .insert ⟨⟨0, 2⟩, .full, true, []⟩
    let ended : CallEdit := ⟨[], ⟨0, 1⟩, ⟨0, 1⟩, ['\n']⟩
    step registry (fun _ => pure (.ok ⟨1, 2⟩)) ⟨b, ()⟩ insert = (.ok edit, ⟨after, ()⟩) ∧
      b.text ≠ after.text ∧ render false b.text after.text = "" ∧
      showsChange (render false b.text after.text) = false ∧
      step registry (fun _ => pure (.ok ⟨1, 2⟩)) ⟨⟨['a'], false⟩, ()⟩ (.replace ⟨0, 1⟩ ⟨0, 1⟩ ['\n']) =
        (.ok ended, ⟨⟨['a', '\n'], false⟩, ()⟩) ∧
      render false ['a'] ['a', '\n'] = "" ∧ showsChange (render false ['a'] ['a', '\n']) = false := by
  intro b after edit registry insert ended
  have hsame : render false b.text after.text = "" := render_of_same_lines false (by decide) (by decide)
  have hended : render false ['a'] ['a', '\n'] = "" := render_of_same_lines false (by decide) (by decide)
  refine ⟨by cbv, by decide, hsame, ?_, by cbv, hended, ?_⟩
  · rw [hsame]
    decide
  · rw [hended]
    decide

end Session
end PugSize
