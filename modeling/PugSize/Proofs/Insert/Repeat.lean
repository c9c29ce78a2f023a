import PugSize.Proofs.Insert.Frame
import PugSize.Proofs.Mixin.PlainRows

/-!
A second insert into a call by position. The call is found again around its new arguments, the same
file stands in them, and what the first insert wrote is written over or kept.
-/

namespace PugSize

open Script

namespace Insert

variable {σ : Type}

/-- The resolver that knows the sizes of images without asking. -/
def fixedResolver (known : Text → Except ImageError Size) : Resolver σ := fun image =>
  pure (known image)

theorem parsed_run {α : Type} (result : Except ArgumentError α) (s : σ) :
    (parsed result).run s = (result.mapError .arguments, s) := rfl

theorem lookUp_fixed (known : Text → Except ImageError Size) (image : Text) (s : σ) :
    (lookUp (fixedResolver known) image).run s = ((known image).mapError .resolution, s) := rfl

theorem scaledSize_fixed (known : Text → Except ImageError Size) (request : SizeRequest)
    (image : Text) (s : σ) :
    (scaledSize (fixedResolver known) request image).run s =
      (((known image).mapError .resolution).map fun size => size.scale request.display, s) := by
  rw [scaledSize, Plan.run_bind, lookUp_fixed]
  cases known image <;> rfl

/-- With sizes that are known, the new arguments are those with the size of the file written in. -/
theorem intoPositional_fixed (known : Text → Except ImageError Size) (request : SizeRequest)
    (t newText : Text) (s s' : σ) :
    (intoPositional (fixedResolver known) request t).run s = (.ok newText, s') ↔
      ∃ found size, PositionalArguments.read t = .ok found ∧ known found.file = .ok size ∧
        newText = Slots.write t found.spans (size.scale request.display) request.overwrite ∧
        s' = s := by
  rw [intoPositional, Plan.run_bind, parsed_run]
  constructor
  · intro h
    cases hread : PositionalArguments.read t with
    | error e =>
        rw [hread] at h
        cases h
    | ok found =>
        rw [hread] at h
        simp only [Except.mapError, Plan.run_bind, scaledSize_fixed] at h
        cases hknown : known found.file with
        | error e =>
            rw [hknown] at h
            cases h
        | ok size =>
            rw [hknown] at h
            cases h
            exact ⟨found, size, rfl, hknown, rfl, rfl⟩
  · rintro ⟨found, size, hread, hknown, rfl, rfl⟩
    rw [hread]
    simp only [Except.mapError, Plan.run_bind, scaledSize_fixed]
    rw [hknown]
    rfl

/-- Around a cursor on a call with a rule, an insert succeeds if it does on the arguments. -/
theorem step_standing {registry : Registry} {resolve : Resolver σ} {b : Buffer} {lookups after : σ}
    {request : SizeRequest} {rule : Rule} {front rest name args newText : Text}
    (hdoc : b.text = front ++ (MixinCall.marker name ++ (args ++ ')' :: rest)))
    (hreturn : '\r' ∉ b.text)
    (hlocate : MixinCall.locate? b request.cursor (names registry request) =
      some (MixinCall.standing (Position.behind front) name args))
    (hlookup : registry.lookup name = .rule rule)
    (hshape : (intoShape resolve request args rule.shape).run lookups = (.ok newText, after)) :
    ∃ edit, Session.step registry resolve ⟨b, lookups⟩ (.insert request) =
      (.ok edit, ⟨{ b with text := front ++ (MixinCall.marker name ++
        (b.adapt newText ++ ')' :: rest)) }, after⟩) := by
  have hplan : (plan b request registry resolve).run lookups =
      (.ok { name
             start := (Position.behind front).advance (MixinCall.marker name)
             stop := (Position.behind front).advance (MixinCall.marker name ++ args)
             newText }, after) := by
    unfold plan
    rw [hlocate]
    simp only [MixinCall.standing_argumentsExtent]
    have hname : (MixinCall.standing (Position.behind front) name args).name = name := rfl
    have hargs : (MixinCall.standing (Position.behind front) name args).arguments = args := rfl
    rw [hname, hargs, hlookup, Plan.run_bind, hshape]
    rfl
  have hcut (before behind : Text) (hb : b.text = before ++ behind) :
      b.offsetOf (Position.behind before) = .ok before.width := by
    apply Buffer.offsetOf_behind hb
    intro hlast
    exact absurd (by rw [hb]; simp [List.mem_of_getLast? hlast]) hreturn
  have happly := Buffer.replace_middle newText
    (by rw [hdoc]; simp : b.text = (front ++ MixinCall.marker name) ++ args ++ ')' :: rest)
    (hcut _ (args ++ ')' :: rest) (by rw [hdoc]; simp)) (hcut _ (')' :: rest) (by rw [hdoc]; simp))
  rw [Position.behind_append, List.append_assoc front, Position.behind_append] at happly
  simp only [List.append_assoc] at happly
  rw [Session.step, hplan]
  simp only [Session.carryOut, apply, happly]
  exact ⟨_, rfl⟩

theorem shape_of_step {registry : Registry} {resolve : Resolver σ} {b : Buffer} {lookups : σ}
    {request : SizeRequest} {rule : Rule} {call : MixinCall} {edit : CallEdit} {after : Session σ}
    (hlocate : MixinCall.locate? b request.cursor (names registry request) = some call)
    (hlookup : registry.lookup call.name = .rule rule)
    (h : Session.step registry resolve ⟨b, lookups⟩ (.insert request) = (.ok edit, after)) :
    ∃ newText lookups', (intoShape resolve request call.arguments rule.shape).run lookups =
      (.ok newText, lookups') := by
  rw [Session.step] at h
  split at h
  · cases h
  · rename_i planned lookups' hplan
    obtain ⟨call', rule', hcall', hrule', hrun, -, -⟩ := plan_eq_ok hplan
    rw [hlocate, Option.some.injEq] at hcall'
    subst hcall'
    rw [hlookup, Lookup.rule.injEq] at hrule'
    subst hrule'
    exact ⟨_, _, hrun⟩

theorem names_of_none {registry : Registry} {request : SizeRequest}
    (h : request.extraNames = []) : names registry request = registry.names := by
  rw [names, h]
  rfl

theorem adapt_of_no_return {t : Text} (h : '\r' ∉ t) (new : Text) :
    (Buffer.ofText t).adapt new = new := by
  rw [Buffer.adapt, Buffer.ofText, Buffer.hasCrlf_of_no_return h]
  rfl

theorem step_positional {registry : Registry} {known : Text → Except ImageError Size} {b : Buffer}
    (lookups : σ) {request : SizeRequest} {rule : Rule} {front rest name args : Text}
    {found : PositionalArguments} {size : Size}
    (hdoc : b.text = front ++ (MixinCall.marker name ++ (args ++ ')' :: rest)))
    (hreturn : '\r' ∉ b.text) (hadapt : ∀ new, b.adapt new = new)
    (hlocate : MixinCall.locate? b request.cursor (names registry request) =
      some (MixinCall.standing (Position.behind front) name args))
    (hlookup : registry.lookup name = .rule rule) (hshape : rule.shape = .positional)
    (hread : PositionalArguments.read args = .ok found) (hknown : known found.file = .ok size) :
    ∃ edit, Session.step registry (fixedResolver known) ⟨b, lookups⟩ (.insert request) =
      (.ok edit, ⟨{ b with text := front ++ (MixinCall.marker name ++
        (Slots.write args found.spans (size.scale request.display) request.overwrite ++
          ')' :: rest)) }, lookups⟩) := by
  have hshaped : (intoShape (fixedResolver known) request args rule.shape).run lookups =
      (.ok (Slots.write args found.spans (size.scale request.display) request.overwrite),
        lookups) := by
    rw [hshape]
    exact (intoPositional_fixed ..).2 ⟨found, size, hread, hknown, rfl, rfl⟩
  obtain ⟨edit, hstep⟩ := step_standing hdoc hreturn hlocate hlookup hshaped
  rw [hadapt] at hstep
  exact ⟨edit, hstep⟩

/-- In a document without carriage returns, and with sizes that are known, a second insert from the
same place on the marker of a call by position finds the call where it was. It writes what it would
have written without the first, or leaves all as it is if values are kept. No candidate may stand
further left, and the arguments may have no block comment and no line end behind a backslash: the
scanner for calls does not know either. -/
theorem insert_again (document : Text) (registry : Registry) (known : Text → Except ImageError Size)
    (lookups : σ) (first second : SizeRequest) (call : MixinCall) (rule : Rule) (edit : CallEdit)
    (after : Session σ) (hreturn : '\r' ∉ document)
    (hnames : ∀ name ∈ registry.names, ∀ c ∈ name, MixinCall.isNameChar c = true)
    (hextra : first.extraNames = [] ∧ second.extraNames = []) (hcursor : second.cursor = first.cursor)
    (hlocate : MixinCall.locate? (Buffer.ofText document) first.cursor registry.names = some call)
    (hmarker : call.start.le first.cursor = true ∧
      first.cursor.le call.argumentsExtent.1 = true)
    (hleft : ∀ line, (Buffer.ofText document).line? call.start.line = some line →
      ∀ candidate ∈ MixinCall.candidates line registry.names, call.start.character ≤ candidate.1)
    (hlookup : registry.lookup call.name = .rule rule) (hshape : rule.shape = .positional)
    (hcomment : ¬ ['/', '*'] <:+: call.arguments) (hline : ¬ ['\\', '\n'] <:+: call.arguments)
    (hfirst : Session.step registry (fixedResolver known) ⟨Buffer.ofText document, lookups⟩
      (.insert first) = (.ok edit, after)) :
    ∃ call' edit' after',
      MixinCall.locate? after.buffer second.cursor registry.names = some call' ∧
      call'.start = call.start ∧
      Session.step registry (fixedResolver known) after (.insert second) = (.ok edit', after') ∧
      (second.overwrite = true → ∃ edit'' alone,
        Session.step registry (fixedResolver known) ⟨Buffer.ofText document, lookups⟩
          (.insert second) = (.ok edit'', alone) ∧ after'.buffer = alone.buffer) ∧
      (second.overwrite = false → after'.buffer = after.buffer) := by
  have hnone := @names_of_none registry first hextra.1
  have hnone' := @names_of_none registry second hextra.2
  obtain ⟨front, rest, hdoc, hcall, hextent, hmem, hne⟩ :=
    MixinCall.exists_standing hreturn hnames hlocate
  have hname := hnames _ hmem
  have hplace : call.start = Position.behind front := by
    rw [hcall]
    rfl
  obtain ⟨newText, lookups', hshaped⟩ := shape_of_step (by rw [hnone, hlocate]) hlookup hfirst
  rw [hshape] at hshaped
  obtain ⟨found, size, hread, hknown, -, -⟩ := (intoPositional_fixed ..).1 hshaped
  have hargs : '\r' ∉ call.arguments := fun hc => hreturn (by
    change '\r' ∈ (Buffer.ofText document).text
    rw [hdoc]
    simp [hc])
  obtain ⟨hreturn', hextent'⟩ := MixinCall.extent?_write hname hextent hread hcomment hline hargs
    (size.scale first.display) first.overwrite
  have hadapt (t new : Text) : ({ Buffer.ofText document with text := t } : Buffer).adapt new = new :=
    adapt_of_no_return hreturn new
  have hlocate' (request : SizeRequest) (hextra : request.extraNames = [])
      (hcursor : request.cursor = first.cursor) :
      MixinCall.locate? (Buffer.ofText document) request.cursor (names registry request) =
        some (MixinCall.standing (Position.behind front) call.name call.arguments) := by
    rw [names_of_none hextra, hcursor, hlocate]
    exact congrArg some hcall
  obtain ⟨edit₁, hstep⟩ := step_positional lookups hdoc hreturn (hadapt document)
    (hlocate' first hextra.1 rfl) hlookup hshape hread hknown
  obtain ⟨edit₂, halone⟩ := step_positional lookups hdoc hreturn (hadapt document)
    (hlocate' second hextra.2 hcursor) hlookup hshape hread hknown
  rw [hstep, Prod.mk.injEq] at hfirst
  obtain ⟨-, rfl⟩ := hfirst
  obtain ⟨spans, hread', htrue, hfalse⟩ :=
    Slots.write_again hread (size.scale first.display) first.overwrite
  generalize hwritten : Slots.write call.arguments found.spans (size.scale first.display)
    first.overwrite = written at *
  have hnew : '\r' ∉ front ++ (MixinCall.marker call.name ++ (written ++ ')' :: rest)) := by
    intro hc
    have hold : '\r' ∉ (Buffer.ofText document).text := hreturn
    rw [hdoc] at hold
    simp only [List.mem_append, List.mem_cons, not_or] at hc hold
    obtain hc | hc | hc | hc | hc := hc
    · exact hold.1 hc
    · exact hold.2.1 hc
    · exact hreturn' hc
    · cases hc
    · exact hold.2.2.2.2 hc
  have hagain : MixinCall.locate?
      { Buffer.ofText document with
        text := front ++ (MixinCall.marker call.name ++ (written ++ ')' :: rest)) }
      second.cursor registry.names =
        some (MixinCall.standing (Position.behind front) call.name written) := by
    rw [hplace, hcall, MixinCall.standing_argumentsExtent] at hmarker
    rw [hcursor]
    refine MixinCall.locate?_standing rfl hnew hnames hmem hne hextent' hmarker.1 hmarker.2 ?_
    rw [hplace] at hleft
    exact MixinCall.candidates_standing hdoc rfl hreturn hnew hnames hleft
  obtain ⟨edit₃, hlast⟩ := step_positional lookups rfl hnew (hadapt _)
    (by rw [hnone']; exact hagain) hlookup hshape hread' hknown
  refine ⟨_, edit₃, _, hagain, hplace.symm, hlast, ?_, ?_⟩
  · intro hoverwrite
    refine ⟨edit₂, _, halone, ?_⟩
    rw [hoverwrite, htrue]
  · intro hoverwrite
    rw [hoverwrite, hfalse]

theorem insert_again_comment :
    let document := "p\n  +img('a.png' // c\n  )\n".toList
    let registry : Registry := ⟨Registry.fallbackRules, []⟩
    let known : Text → Except ImageError Size := fun _ => .ok ⟨30, 40⟩
    let first : SizeRequest := ⟨⟨1, 4⟩, .full, false, []⟩
    let second : SizeRequest := ⟨⟨1, 4⟩, .half, true, []⟩
    let edit : CallEdit := ⟨"img".toList, ⟨1, 7⟩, ⟨2, 2⟩, "'a.png', '', 30, 40 // c\n  ".toList⟩
    let after : Session Unit :=
      ⟨Buffer.ofText "p\n  +img('a.png', '', 30, 40 // c\n  )\n".toList, ()⟩
    Session.step registry (fixedResolver known) ⟨Buffer.ofText document, ()⟩ (.insert first) =
      (.ok edit, after) ∧
    ∃ call' edit' after',
      MixinCall.locate? after.buffer second.cursor registry.names = some call' ∧
      call'.start = ⟨1, 2⟩ ∧
      Session.step registry (fixedResolver known) after (.insert second) = (.ok edit', after') ∧
      (second.overwrite = true → ∃ edit'' alone,
        Session.step registry (fixedResolver known) ⟨Buffer.ofText document, ()⟩
          (.insert second) = (.ok edit'', alone) ∧ after'.buffer = alone.buffer) ∧
      (second.overwrite = false → after'.buffer = after.buffer) := by
  have hlocate : MixinCall.locate? (Buffer.ofText "p\n  +img('a.png' // c\n  )\n".toList) ⟨1, 4⟩
      (⟨Registry.fallbackRules, []⟩ : Registry).names =
        some ⟨"img".toList, ⟨1, 2⟩, ⟨2, 3⟩, "+img('a.png' // c\n  )".toList,
          "'a.png' // c\n  ".toList, 5⟩ := by cbv
  have hline : (Buffer.ofText "p\n  +img('a.png' // c\n  )\n".toList).line? 1 =
      some "  +img('a.png' // c".toList := by cbv
  have hnames : (⟨Registry.fallbackRules, []⟩ : Registry).names =
      ["img".toList, "picture".toList] := by cbv
  have hcandidates : MixinCall.candidates "  +img('a.png' // c".toList
      ["img".toList, "picture".toList] = [(2, "img".toList)] := by cbv
  have hlookup : (⟨Registry.fallbackRules, []⟩ : Registry).lookup "img".toList =
      .rule ⟨"img".toList, .positional⟩ := by cbv
  have hstep : Session.step ⟨Registry.fallbackRules, []⟩ (fixedResolver fun _ => .ok ⟨30, 40⟩)
      ⟨Buffer.ofText "p\n  +img('a.png' // c\n  )\n".toList, ()⟩
      (.insert ⟨⟨1, 4⟩, .full, false, []⟩) =
        (.ok ⟨"img".toList, ⟨1, 7⟩, ⟨2, 2⟩, "'a.png', '', 30, 40 // c\n  ".toList⟩,
          ⟨Buffer.ofText "p\n  +img('a.png', '', 30, 40 // c\n  )\n".toList, ()⟩) := by cbv
  have hmarker : (⟨1, 4⟩ : Position).le (⟨"img".toList, ⟨1, 2⟩, ⟨2, 3⟩, "+img('a.png' // c\n  )".toList,
      "'a.png' // c\n  ".toList, 5⟩ : MixinCall).argumentsExtent.1 = true := by cbv
  have hmissing (pattern : List Char) (c : Char) (hc : c ∈ pattern)
      (habsent : c ∉ "'a.png' // c\n  ".toList) : ¬ pattern <:+: "'a.png' // c\n  ".toList :=
    fun hwithin => habsent (hwithin.subset hc)
  intro document registry known first second edit after
  refine ⟨hstep, insert_again document registry known () first second
    ⟨"img".toList, ⟨1, 2⟩, ⟨2, 3⟩, "+img('a.png' // c\n  )".toList, "'a.png' // c\n  ".toList, 5⟩
    ⟨"img".toList, .positional⟩ edit after (by simp [document]) ?_ ⟨rfl, rfl⟩ rfl hlocate
    ⟨by decide, hmarker⟩ ?_ hlookup rfl (hmissing _ '*' (by simp) (by simp))
    (hmissing _ '\\' (by simp) (by simp)) hstep⟩
  · rw [hnames, List.forall_mem_cons, List.forall_mem_singleton]
    exact ⟨List.all_eq_true.1 (by decide), List.all_eq_true.1 (by decide)⟩
  · intro line h
    obtain rfl : "  +img('a.png' // c".toList = line := Option.some.inj (hline.symm.trans h)
    rw [hnames, hcandidates]
    simp

end Insert
end PugSize
