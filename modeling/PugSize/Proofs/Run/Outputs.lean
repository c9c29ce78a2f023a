import PugSize.Proofs.Insert.Congruence
import PugSize.Proofs.Run.Loading
import PugSize.Proofs.Run.Printed

/-!
One invocation with its three outputs. A run that previews differs from the plain run in nothing but
the file; a run that prints the edit asks no question and writes no file either, and without a
question what it prints reads as the edit that the plain run carries out. Loading the settings may write
the file of the user's settings, in all three runs alike.
-/

namespace PugSize

namespace CommandLine

/-- The invocation with another output. -/
def Invocation.withOutput (i : Invocation) (output : Output) : Invocation :=
  { i with options := { i.options with output } }

end CommandLine

namespace Interview

/-- Whether the second of two programs asks nothing, and does what the first one does unless that
asks. -/
def Agrees {α : Type} (x y : StateM Interview α) : Prop :=
  ∀ i : Interview, (y.run i).2 = i ∧ (i.asked.length < (x.run i).2.asked.length ∨ x.run i = y.run i)

theorem Agrees.pure {α : Type} (a : α) : Agrees (Pure.pure a) (Pure.pure a) :=
  fun _ => ⟨rfl, .inr rfl⟩

theorem Agrees.bind {α β : Type} {x y : StateM Interview α} {f g : α → StateM Interview β}
    (hx : Agrees x y) (hf : ∀ a, Agrees (f a) (g a)) : Agrees (x >>= f) (y >>= g) := by
  intro i
  have hbind (m : StateM Interview α) (k : α → StateM Interview β) :
      (m >>= k).run i = (k (m.run i).1).run (m.run i).2 := rfl
  obtain ⟨hy, hxy⟩ := hx i
  rw [hbind, hbind, hy]
  refine ⟨(hf _ i).1, ?_⟩
  obtain hasked | hsame := hxy
  · -- Whatever follows, the question that was asked stays.
    left
    obtain ⟨hstill, hlonger | hsame⟩ := hf (x.run i).1 (x.run i).2
    · exact Nat.lt_trans hasked hlonger
    · rwa [hsame, hstill]
  · rw [hsame, hy]
    exact (hf _ i).2

theorem agrees_ask (file : String) (candidates : List Place) :
    Agrees (ask file candidates) (decline file candidates) := by
  intro i
  have hasked : ((ask file candidates).run i).2.asked = i.asked ++ [⟨file, candidates⟩] := rfl
  refine ⟨rfl, .inl ?_⟩
  rw [hasked, List.length_append]
  exact Nat.lt_succ_self _

/-- A lookup asks nothing unless several files match. -/
theorem agrees_locateBy (search : ImageSearch) (walk : Walker) (file : String) :
    Agrees (search.locateBy walk ask file) (search.locateBy walk decline file) := by
  unfold ImageSearch.locateBy
  dsimp only
  split
  · exact .pure _
  split
  · exact .pure _
  split
  · exact .pure _
  · exact .pure _
  · refine (agrees_ask file _).bind fun choice => ?_
    cases choice <;> exact .pure _

theorem agrees_resolverBy (search : ImageSearch) (raster? : RasterReader) (walk : Walker)
    (image : Text) :
    Agrees (search.resolverBy raster? walk ask image)
      (search.resolverBy raster? walk decline image) := by
  refine (agrees_locateBy search walk _).bind fun found => ?_
  cases found <;> exact .pure _

theorem congruence_agrees :
    Insert.Plan.Congruence fun {α} (x y : Insert.Plan Interview α) => Agrees x.run y.run where
  pure _ := .pure _
  fail _ := .pure _
  bind {α β x y f g} hx hf := by
    rw [ExceptT.run_bind, ExceptT.run_bind]
    refine hx.bind fun result => ?_
    cases result with
    | error e => exact .pure _
    | ok a => exact hf a

theorem agrees_plan (search : ImageSearch) (raster? : RasterReader) (walk : Walker) (b : Buffer)
    (request : SizeRequest) (registry : Registry) :
    Agrees (Insert.plan b request registry (search.resolverBy raster? walk ask)).run
      (Insert.plan b request registry (search.resolverBy raster? walk decline)).run := by
  refine Insert.plan_congruence congruence_agrees (fun image => ?_) b request registry
  exact (agrees_resolverBy search raster? walk image).bind fun result => .pure _

end Interview

namespace Insert

theorem apply_of_plan {σ : Type} {b : Buffer} {request : SizeRequest} {registry : Registry}
    {resolve : Resolver σ} {lookups after : σ} {edit : CallEdit}
    (h : (plan b request registry resolve).run lookups = (.ok edit, after)) :
    ∃ b', apply b edit = .ok b' := by
  obtain ⟨_, front, opening, inside, rest, -, hdoc, -, -, -, -, hstart, hstop⟩ := plan_parts h
  exact ⟨_, Buffer.replace_middle edit.newText hdoc hstart hstop⟩

end Insert

namespace Run

open CommandLine (InsertOptions Invocation Output)

variable {packages : Packages}

/-- The files that loading the settings writes. -/
def settingsWrites (packages : Packages) (s : Surroundings) (o : InsertOptions) : FileTree.Writes :=
  match Settings.loadBy packages.toml s.tree s.home (root s o) o.config s.userDirectory with
  | .ok loaded => loaded.writes
  | .error _ => []

/-- What a run has before it plans: the settings, the document and the cursor. A run that does not
come so far ends with a report. -/
def prepare (packages : Packages) (s : Surroundings) (o : InsertOptions) :
    Except Report (Settings.Loaded × Buffer × Position) :=
  match Settings.loadBy packages.toml s.tree s.home (root s o) o.config s.userDirectory with
  | .error e => .error (Report.fatal [] e.message)
  | .ok loaded =>
    match (tree s loaded).readText s.home o.file with
    | .error cause => .error (Report.fatal loaded.writes s!"Failed to read '{o.file}': {cause.message}")
    | .ok content =>
      match o.cursor with
      | .error message => .error (Report.fatal loaded.writes message)
      | .ok cursor => .ok (loaded, Buffer.ofText content.toList, cursor)

theorem insertBy_eq (packages : Packages) (s : Surroundings) (i : Invocation) :
    insertBy packages s i =
      match prepare packages s i.options with
      | .error report => report
      | .ok (loaded, b, cursor) =>
        match planBy packages s i loaded b cursor with
        | (.error e, questions) => refuse i.options.output loaded.writes questions e
        | (.ok edit, questions) => carryOut s i.options loaded b questions edit := by
  unfold insertBy prepare
  dsimp only
  cases Settings.loadBy packages.toml s.tree s.home (root s i.options) i.options.config s.userDirectory with
  | error e => rfl
  | ok loaded =>
      dsimp only
      cases (tree s loaded).readText s.home i.options.file with
      | error cause => rfl
      | ok content =>
          dsimp only
          cases i.options.cursor <;> rfl

@[simp] theorem prepare_withOutput (packages : Packages) (s : Surroundings) (i : Invocation) (output : Output) :
    prepare packages s (i.withOutput output).options = prepare packages s i.options := rfl

/-- The document that a run reads and the edit that it comes to. -/
structure Planned where
  loaded : Settings.Loaded
  buffer : Buffer
  edit : CallEdit

def planned? (packages : Packages) (s : Surroundings) (i : Invocation) : Option Planned :=
  match prepare packages s i.options with
  | .error _ => none
  | .ok (loaded, b, cursor) =>
    match (planBy packages s i loaded b cursor).1 with
    | .error _ => none
    | .ok edit => some ⟨loaded, b, edit⟩

/-- Loading the settings writes nothing, or the file of the user, where no directory is. -/
theorem settingsWrites_cases (packages : Packages) (s : Surroundings) (o : InsertOptions) :
    settingsWrites packages s o = [] ∨
      s.tree.entry (Settings.userPlace s.userDirectory) ≠ .directory ∧ ∃ content,
        settingsWrites packages s o = [(Settings.userPlace s.userDirectory, content)] := by
  unfold settingsWrites
  split
  · rename_i hload
    obtain hnone | ⟨settings, -, hwritten, hstores, -⟩ :=
      Settings.stepsBy_cases (Settings.loadBy_eq_ok.1 hload)
    · exact .inl hnone
    · exact .inr ⟨hstores.noDirectory, _, hwritten⟩
  · exact .inl rfl

/-- Whether a run leaves every file but that of the user's settings as it was. So it does the file at a
path, unless the path leads to the user's settings. -/
structure Keeps (s : Surroundings) (file : String) (r : Report) : Prop where
  files : ∀ place, place ≠ Settings.userPlace s.userDirectory →
    (s.tree.writeAll r.writes).files.lookup place = s.tree.files.lookup place
  text : ∀ place, place ≠ Settings.userPlace s.userDirectory →
    s.tree.locate s.home file = .ok place →
      (s.tree.writeAll r.writes).readText s.home file = s.tree.readText s.home file

/-- A run that writes what loading the settings writes keeps the other files. -/
theorem keeps_of_writes {s : Surroundings} {o : InsertOptions} {r : Report} (file : String)
    (h : r.writes = settingsWrites packages s o) : Keeps s file r := by
  obtain hnone | ⟨hdirectory, content, hwritten⟩ := settingsWrites_cases packages s o
  · rw [hnone] at h
    exact ⟨fun place _ => by rw [h]; rfl, fun place _ _ => by rw [h]; rfl⟩
  · rw [hwritten] at h
    refine ⟨fun place hplace => ?_, fun place hplace hlocate => ?_⟩
    · rw [h]
      exact FileTree.lookup_write.trans (if_neg hplace)
    · rw [h]
      exact FileTree.readText_write_other hdirectory hlocate hplace

/-- A run that gets to plan has read the file in the tree that the settings left. -/
theorem prepare_eq_ok {s : Surroundings} {o : InsertOptions} {loaded : Settings.Loaded} {b : Buffer}
    {cursor : Position} (h : prepare packages s o = .ok (loaded, b, cursor)) :
    loaded.writes = settingsWrites packages s o ∧
      (tree s loaded).readText s.home o.file = .ok (String.ofList b.text) := by
  unfold prepare at h
  split at h
  · cases h
  rename_i hload
  split at h
  · cases h
  rename_i content hcontent
  split at h
  · cases h
  cases h
  refine ⟨by rw [settingsWrites, hload], ?_⟩
  rw [hcontent, Buffer.ofText, String.ofList_toList]

/-- A run that does not get to plan writes the settings only, asks nothing and prints nothing but its
complaint. -/
theorem prepare_eq_error {s : Surroundings} {o : InsertOptions} {report : Report}
    (h : prepare packages s o = .error report) :
    report.writes = settingsWrites packages s o ∧ report.questions = [] ∧ report.output = "" := by
  unfold prepare at h
  unfold settingsWrites
  split at h
  · cases h
    rename_i hload
    rw [hload]
    exact ⟨rfl, rfl, rfl⟩
  rename_i hload
  rw [hload]
  split at h
  · cases h
    exact ⟨rfl, rfl, rfl⟩
  split at h <;> cases h
  exact ⟨rfl, rfl, rfl⟩

theorem apply_of_plan {s : Surroundings} {i : Invocation} {loaded : Settings.Loaded} {b : Buffer}
    {cursor : Position} {edit : CallEdit} {questions : List Question}
    (h : planBy packages s i loaded b cursor = (.ok edit, questions)) :
    ∃ after, Insert.apply b edit = .ok after := by
  obtain ⟨hresult, -⟩ := Prod.mk.inj h
  exact Insert.apply_of_plan (Prod.ext hresult rfl)

/-- A preview differs from the plain run in nothing but the file. -/
theorem insertBy_preview (packages : Packages) (s : Surroundings) (i : Invocation) :
    insertBy packages s (i.withOutput .preview) =
      { insertBy packages s (i.withOutput .apply) with writes := settingsWrites packages s i.options } := by
  rw [insertBy_eq, insertBy_eq, prepare_withOutput, prepare_withOutput]
  cases hstart : prepare packages s i.options with
  | error report =>
      obtain ⟨hwrites, -, -⟩ := prepare_eq_error hstart
      dsimp only
      rw [← hwrites]
  | ok start =>
      obtain ⟨loaded, b, cursor⟩ := start
      obtain ⟨hwrites, -⟩ := prepare_eq_ok hstart
      have hplan : planBy packages s (i.withOutput .preview) loaded b cursor =
          planBy packages s (i.withOutput .apply) loaded b cursor := rfl
      dsimp only
      rw [hplan]
      cases hplanned : planBy packages s (i.withOutput .apply) loaded b cursor with
      | mk result questions =>
          cases result with
          | error e =>
              cases hbenign : e.isBenign <;>
                simp [refuse, hbenign, Invocation.withOutput, hwrites]
          | ok edit =>
              obtain ⟨after, happly⟩ := apply_of_plan hplanned
              simp only [carryOut, Invocation.withOutput, happly, hwrites]
              simp

theorem planned?_eq_some {s : Surroundings} {i : Invocation} {p : Planned}
    (h : planned? packages s i = some p) :
    ∃ cursor questions, prepare packages s i.options = .ok (p.loaded, p.buffer, cursor) ∧
      planBy packages s i p.loaded p.buffer cursor = (.ok p.edit, questions) ∧
      insertBy packages s i = carryOut s i.options p.loaded p.buffer questions p.edit := by
  unfold planned? at h
  split at h
  · cases h
  rename_i loaded b cursor hprepare
  split at h
  · cases h
  rename_i edit hedit
  cases h
  have hplan : planBy packages s i loaded b cursor = (.ok edit, (planBy packages s i loaded b cursor).2) :=
    Prod.ext hedit rfl
  refine ⟨cursor, _, hprepare, hplan, ?_⟩
  rw [insertBy_eq, hprepare]
  dsimp only
  rw [hplan]

theorem planned?_eq_none {s : Surroundings} {i : Invocation} (h : planned? packages s i = none) :
    prepare packages s i.options = .error (insertBy packages s i) ∨ ∃ loaded b cursor e questions,
      prepare packages s i.options = .ok (loaded, b, cursor) ∧
      planBy packages s i loaded b cursor = (.error e, questions) ∧
      insertBy packages s i = refuse i.options.output loaded.writes questions e := by
  unfold planned? at h
  split at h
  · rename_i report hprepare
    rw [insertBy_eq, hprepare]
    exact .inl rfl
  rename_i loaded b cursor hprepare
  split at h
  · rename_i e he
    have hplan : planBy packages s i loaded b cursor = (.error e, (planBy packages s i loaded b cursor).2) :=
      Prod.ext he rfl
    refine .inr ⟨loaded, b, cursor, e, _, hprepare, hplan, ?_⟩
    rw [insertBy_eq, hprepare]
    dsimp only
    rw [hplan]
  · cases h

section

variable {s : Surroundings} {o : InsertOptions} {loaded : Settings.Loaded} {b : Buffer}
  {edit : CallEdit} (questions : List Question)

theorem carryOut_json (h : o.output = .json) : carryOut s o loaded b questions edit =
    ⟨0, String.ofList (edit.json.pretty 0) ++ "\n", questions, "", loaded.writes⟩ := by
  rw [carryOut, if_pos h]

theorem carryOut_apply {after : Buffer} {place : Place} (h : o.output = .apply)
    (happly : Insert.apply b edit = .ok after)
    (hlocate : (tree s loaded).locate s.home o.file = .ok place) :
    carryOut s o loaded b questions edit =
      ⟨0, LineDiff.render false b.text after.text ++ "\n", questions, "",
        loaded.writes ++ [(place, (String.ofList after.text).toUTF8)]⟩ := by
  simp [carryOut, h, happly, store, hlocate]

theorem code_carryOut {after : Buffer} (happly : Insert.apply b edit = .ok after) :
    (carryOut s o loaded b questions edit).code = 0 := by
  unfold carryOut
  rw [happly]
  split <;> rfl

theorem questions_carryOut : (carryOut s o loaded b questions edit).questions = questions := by
  unfold carryOut
  split
  · rfl
  · split <;> rfl

end

/-- A plain run that comes to an edit carries it out: it ends well, shows the changes, and writes the
new text to the file, which then reads so. -/
theorem insertBy_apply {s : Surroundings} {i : Invocation} {p : Planned}
    (h : planned? packages s (i.withOutput .apply) = some p) :
    let settled := s.tree.writeAll (settingsWrites packages s i.options)
    let plain := insertBy packages s (i.withOutput .apply)
    ∃ after place, p.buffer.replace p.edit.start p.edit.stop p.edit.newText = .ok after ∧
      settled.locate s.home i.options.file = .ok place ∧
      settled.readText s.home i.options.file = .ok (String.ofList p.buffer.text) ∧
      plain.code = 0 ∧ plain.output = LineDiff.render false p.buffer.text after.text ++ "\n" ∧
      s.tree.writeAll plain.writes = settled.write place (String.ofList after.text).toUTF8 ∧
      (s.tree.writeAll plain.writes).readText s.home i.options.file =
        .ok (String.ofList after.text) := by
  intro settled plain
  obtain ⟨cursor, questions, hprepare, hplan, hinsert⟩ := planned?_eq_some h
  rw [prepare_withOutput] at hprepare
  obtain ⟨hwrites, hread⟩ := prepare_eq_ok hprepare
  obtain ⟨after, happly⟩ := apply_of_plan hplan
  obtain ⟨place, hlocate, hreadText⟩ := FileTree.readText_write hread (String.ofList after.text)
  have hreport : plain =
      ⟨0, LineDiff.render false p.buffer.text after.text ++ "\n", questions, "",
        p.loaded.writes ++ [(place, (String.ofList after.text).toUTF8)]⟩ := by
    refine hinsert.trans ?_
    exact carryOut_apply questions rfl happly hlocate
  rw [tree, hwrites] at hread hlocate hreadText
  have hafter : s.tree.writeAll plain.writes =
      settled.write place (String.ofList after.text).toUTF8 := by
    rw [hreport, hwrites, FileTree.writeAll, List.foldl_append]
    rfl
  refine ⟨after, place, happly, hlocate, hread, ?_, ?_, hafter, hafter ▸ hreadText⟩
  · rw [hreport]
  · rw [hreport]

theorem writes_refuse (output : Output) (writes : FileTree.Writes) (questions : List Question)
    (e : SizingError) : (refuse output writes questions e).writes = writes := by
  unfold refuse
  split
  · split <;> rfl
  · rfl

/-- A run that comes to no edit writes the settings only. -/
theorem insertBy_refused {s : Surroundings} {i : Invocation} (h : planned? packages s i = none) :
    (insertBy packages s i).writes = settingsWrites packages s i.options := by
  obtain hprepare | ⟨loaded, b, cursor, e, questions, hprepare, -, hinsert⟩ := planned?_eq_none h
  · exact (prepare_eq_error hprepare).1
  · rw [hinsert, writes_refuse]
    exact (prepare_eq_ok hprepare).1

/-- Planning for printing asks nothing, and it ends as planning for the plain run does unless that
asks. -/
theorem planBy_json (packages : Packages) (s : Surroundings) (i : Invocation) (loaded : Settings.Loaded) (b : Buffer)
    (cursor : Position) :
    (planBy packages s (i.withOutput .json) loaded b cursor).2 = [] ∧
      ((planBy packages s (i.withOutput .apply) loaded b cursor).2 = [] →
        planBy packages s (i.withOutput .json) loaded b cursor =
          planBy packages s (i.withOutput .apply) loaded b cursor) := by
  obtain ⟨hquiet, hagrees⟩ := Interview.agrees_plan (search s i.options loaded)
    packages.raster? packages.walk b
    (request i cursor loaded.settings) loaded.settings.registry ⟨s.answers, []⟩
  refine ⟨congrArg Interview.asked hquiet, fun hnone => ?_⟩
  obtain hasked | hsame := hagrees
  · have hlength := congrArg List.length hnone
    exact absurd hlength (Nat.ne_of_gt hasked)
  · exact Prod.ext (congrArg Prod.fst hsame).symm (congrArg (fun r => r.2.asked) hsame).symm

theorem refuse_json (output : Output) (writes : FileTree.Writes) (questions : List Question)
    (e : SizingError) : (refuse .json writes questions e).output = "" ∧
      (refuse .json writes questions e).code = (refuse output writes questions e).code := by
  unfold refuse
  split
  · refine ⟨rfl, ?_⟩
    rw [if_pos rfl]
    split <;> rfl
  · exact ⟨rfl, rfl⟩

theorem questions_refuse (output : Output) (writes : FileTree.Writes) (questions : List Question)
    (e : SizingError) : (refuse output writes questions e).questions = questions := by
  unfold refuse
  split
  · split <;> rfl
  · rfl

/-- A run that prints the edit writes the settings only and asks nothing. If the plain run asks nothing
either, it ends with the same code, and what it prints reads as the edit of the plain run; without an edit
it prints nothing that could be read as one. -/
theorem insertBy_json (packages : Packages) (s : Surroundings) (i : Invocation) :
    let printed := insertBy packages s (i.withOutput .json)
    let plain := insertBy packages s (i.withOutput .apply)
    printed.writes = settingsWrites packages s i.options ∧ printed.questions = [] ∧
    (plain.questions = [] → printed.code = plain.code ∧
      CallEdit.ofOutput? printed.output =
        (planned? packages s (i.withOutput .apply)).map Planned.edit) := by
  intro printed plain
  unfold printed plain
  rw [insertBy_eq, insertBy_eq, planned?, prepare_withOutput, prepare_withOutput]
  cases hstart : prepare packages s i.options with
  | error report =>
      obtain ⟨hwrites, hquestions, houtput⟩ := prepare_eq_error hstart
      exact ⟨hwrites, hquestions, fun _ =>
        ⟨rfl, (congrArg CallEdit.ofOutput? houtput).trans CallEdit.ofOutput?_empty⟩⟩
  | ok start =>
      obtain ⟨loaded, b, cursor⟩ := start
      obtain ⟨hwrites, -⟩ := prepare_eq_ok hstart
      obtain ⟨hquiet, hsame⟩ := planBy_json packages s i loaded b cursor
      dsimp only
      refine ⟨?_, ?_, fun hnone => ?_⟩
      · cases planBy packages s (i.withOutput .json) loaded b cursor with
        | mk result questions =>
            cases result with
            | error e => exact (writes_refuse _ _ _ e).trans hwrites
            | ok edit => exact (congrArg Report.writes (carryOut_json questions rfl)).trans hwrites
      · cases hplan : planBy packages s (i.withOutput .json) loaded b cursor with
        | mk result questions =>
            rw [hplan] at hquiet
            cases result with
            | error e => exact (questions_refuse _ _ _ e).trans hquiet
            | ok edit => exact (questions_carryOut questions).trans hquiet
      · cases hplan : planBy packages s (i.withOutput .apply) loaded b cursor with
        | mk result questions =>
            rw [hplan] at hnone hsame
            cases result with
            | error e =>
                have hasked : questions = [] := (questions_refuse _ _ _ e).symm.trans hnone
                obtain ⟨hprinted, hcode⟩ := refuse_json .apply loaded.writes questions e
                rw [hsame hasked]
                exact ⟨hcode, (congrArg CallEdit.ofOutput? hprinted).trans CallEdit.ofOutput?_empty⟩
            | ok edit =>
                have hasked : questions = [] := (questions_carryOut questions).symm.trans hnone
                obtain ⟨after, happly⟩ := apply_of_plan hplan
                rw [hsame hasked]
                dsimp only
                rw [carryOut_json questions rfl, code_carryOut questions happly]
                exact ⟨rfl, CallEdit.ofOutput?_pretty edit⟩

/-- The three outputs of one invocation agree, with any packages. A preview has the report of the plain
run, and keeps all files but that of the user's settings. The plain run keeps them too unless it comes to
an edit; then it ends well, shows the changes, and leaves what the preview leaves, but for its own file,
which has the new text. A run that prints the edit keeps the files and asks nothing. If the plain run asks
nothing, as it does when no lookup is ambiguous, the printing run ends with the same code, and what it
prints reads as the edit of the plain run, or as none if there is none. -/
theorem insertBy_outputs (packages : Packages) (s : Surroundings) (i : Invocation) :
    let file := i.options.file
    let plain := insertBy packages s (i.withOutput .apply)
    let shown := insertBy packages s (i.withOutput .preview)
    let printed := insertBy packages s (i.withOutput .json)
    let planned := planned? packages s (i.withOutput .apply)
    let after := fun r : Report => s.tree.writeAll r.writes
    shown = { plain with writes := shown.writes } ∧ Keeps s file shown ∧
    (planned = none → Keeps s file plain) ∧
    (∀ p, planned = some p → ∃ new place,
      p.buffer.replace p.edit.start p.edit.stop p.edit.newText = .ok new ∧
      (after shown).locate s.home file = .ok place ∧
      (after shown).readText s.home file = .ok (String.ofList p.buffer.text) ∧
      plain.code = 0 ∧ plain.output = LineDiff.render false p.buffer.text new.text ++ "\n" ∧
      after plain = (after shown).write place (String.ofList new.text).toUTF8 ∧
      (after plain).readText s.home file = .ok (String.ofList new.text)) ∧
    Keeps s file printed ∧ printed.questions = [] ∧
    (plain.questions = [] → printed.code = plain.code ∧
      CallEdit.ofOutput? printed.output = planned.map Planned.edit) := by
  intro file plain shown printed planned after
  have hshown : shown = { plain with writes := settingsWrites packages s i.options } :=
    insertBy_preview packages s i
  have hwrites : shown.writes = settingsWrites packages s i.options := by rw [hshown]
  obtain ⟨hprinted, hquestions, hread⟩ := insertBy_json packages s i
  refine ⟨?_, keeps_of_writes file hwrites, fun hnone => keeps_of_writes file (insertBy_refused hnone),
    fun p hp => ?_, keeps_of_writes file hprinted, hquestions, hread⟩
  · rw [hwrites]
    exact hshown
  · have hafter : after shown = s.tree.writeAll (settingsWrites packages s i.options) :=
      congrArg s.tree.writeAll hwrites
    rw [hafter]
    exact insertBy_apply hp

/-- A workspace with a document and the image that it shows, three pixels wide. -/
def gallery : Surroundings where
  tree := ⟨[(["w", "index.pug"], "+img('a.gif')\n".toUTF8), (["w", "c.toml"], "".toUTF8),
    (["w", "app", "assets", "images", "a.gif"],
      ⟨#[71, 73, 70, 56, 57, 97, 3, 0, 1, 0, 0, 0, 0, 59]⟩)], []⟩
  home := ["w"]
  userDirectory := ["u"]
  answers := []

def firstLine : Invocation := ⟨.full, false, ⟨"index.pug", 1, 1, .apply, none, none, some "c.toml", []⟩⟩

/-- One edit, printed, shown and carried out. -/
theorem insertBy_outputs_gallery :
    let edit : CallEdit := ⟨"img".toList, ⟨0, 5⟩, ⟨0, 12⟩, "'a.gif', '', 3, 1".toList⟩
    let plain := insertBy Packages.standard gallery (firstLine.withOutput .apply)
    let shown := insertBy Packages.standard gallery (firstLine.withOutput .preview)
    let printed := insertBy Packages.standard gallery (firstLine.withOutput .json)
    let text := fun r : Report => (gallery.tree.writeAll r.writes).readText gallery.home "index.pug"
    printed.output = "\x7b\n  \"name\": \"img\",\n  \"range\": \x7b\n    \"start\": \x7b\n" ++
      "      \"line\": 0,\n      \"character\": 5\n    \x7d,\n    \"end\": \x7b\n" ++
      "      \"line\": 0,\n      \"character\": 12\n    \x7d\n  \x7d,\n" ++
      "  \"newText\": \"'a.gif', '', 3, 1\"\n\x7d\n" ∧
    CallEdit.ofOutput? printed.output = some edit ∧ printed.code = 0 ∧
    shown.output = "-    1: +img('a.gif')\n+    1: +img('a.gif', '', 3, 1)\n" ∧
    text printed = .ok "+img('a.gif')\n" ∧ text shown = .ok "+img('a.gif')\n" ∧
    text plain = .ok "+img('a.gif', '', 3, 1)\n" := by
  intro edit plain shown printed text
  obtain ⟨-, hshown, -, hplain, hprinted, -, hread⟩ :=
    insertBy_outputs Packages.standard gallery firstLine
  have hplanned : (planned? Packages.standard gallery (firstLine.withOutput .apply)).map
      (fun p => (p.buffer, p.edit)) = some (Buffer.ofText "+img('a.gif')\n".toList, edit) := by
    decide +kernel
  obtain ⟨p, hp, hparts⟩ := Option.map_eq_some_iff.1 hplanned
  obtain ⟨hbuffer, hedit⟩ := Prod.mk.inj hparts
  obtain ⟨new, -, hnew, -, -, hcode, -, -, hafter⟩ := hplain p hp
  obtain ⟨hcodes, hoffered⟩ := hread (by decide +kernel)
  have hreplaced : (Buffer.ofText "+img('a.gif')\n".toList).replace edit.start edit.stop edit.newText =
      .ok (Buffer.ofText "+img('a.gif', '', 3, 1)\n".toList) := by
    decide +kernel
  have hbefore : gallery.tree.readText gallery.home "index.pug" = .ok "+img('a.gif')\n" := by
    refine FileTree.readText_of_lookup (p := ["w", "index.pug"]) (by decide +kernel) ?_
    simp [gallery]
  have hplace : gallery.tree.locate gallery.home "index.pug" = .ok ["w", "index.pug"] := by
    decide +kernel
  have hother : ["w", "index.pug"] ≠ Settings.userPlace gallery.userDirectory := by decide +kernel
  rw [hbuffer, hedit, hreplaced] at hnew
  obtain rfl := Except.ok.inj hnew
  refine ⟨by decide +kernel, ?_, hcodes.trans hcode, by decide +kernel,
    (hprinted.text _ hother hplace).trans hbefore, (hshown.text _ hother hplace).trans hbefore, hafter⟩
  rw [hoffered, hp, Option.map_some, hedit]

/-- The file of a user who has left a setting blank, taken for a document. -/
def owner : Surroundings := ⟨Settings.blankRoot, [], ["u"], []⟩

def ownFile : Invocation :=
  ⟨.full, false, ⟨"/u/mixsize/config.toml", 1, 1, .apply, none, some "/w", none, []⟩⟩

/-- A document without a call. -/
def callless : Surroundings where
  tree := ⟨[(["w", "index.pug"], "p hello\n".toUTF8), (["w", "c.toml"], "".toUTF8)], []⟩
  home := ["w"]
  userDirectory := ["u"]
  answers := []

/-- Two limits. The file of the user's settings is completed by every run, also by one that previews or
prints; and a run that prints ends well also without an edit, if there was just nothing to do. -/
theorem insertBy_outputs_limits :
    let text := fun r : Report =>
      (owner.tree.writeAll r.writes).readText owner.home "/u/mixsize/config.toml"
    (owner.tree.readText owner.home "/u/mixsize/config.toml" = .ok "images_root = \" \"\n" ∧
      text (insertBy Packages.standard owner (ownFile.withOutput .preview)) ≠ .ok "images_root = \" \"\n" ∧
      text (insertBy Packages.standard owner (ownFile.withOutput .json)) ≠ .ok "images_root = \" \"\n") ∧
    planned? Packages.standard callless (firstLine.withOutput .apply) = none ∧
      (insertBy Packages.standard callless (firstLine.withOutput .apply)).questions = [] ∧
      (insertBy Packages.standard callless (firstLine.withOutput .json)).code = 0 ∧
      (insertBy Packages.standard callless (firstLine.withOutput .json)).output = "" := by
  intro text
  have hload : Settings.loadBy Packages.standard.toml owner.tree owner.home
      (root owner ownFile.options) ownFile.options.config owner.userDirectory =
        .ok ⟨Settings.default, [(Settings.userPlace ["u"], Settings.default.bytes Toml.standard)]⟩ :=
    Settings.loadBy_eq_ok.2 Settings.stepsBy_blankRoot
  have hsettled : settingsWrites Packages.standard owner ownFile.options =
      [(Settings.userPlace ["u"], Settings.default.bytes Toml.standard)] := by
    rw [settingsWrites, hload]
  have hplace : owner.tree.locate owner.home "/u/mixsize/config.toml" = .ok (Settings.userPlace ["u"]) := by
    decide +kernel
  have hold : owner.tree.files.lookup (Settings.userPlace ["u"]) = some "images_root = \" \"\n".toUTF8 := by
    have hplace : Settings.userPlace ["u"] = ["u", "mixsize", "config.toml"] := by decide +kernel
    rw [hplace]
    exact List.lookup_cons_self
  have hafter (r : Report) (h : r.writes = settingsWrites Packages.standard owner ownFile.options) :
      text r ≠ .ok "images_root = \" \"\n" := by
    have htext : text r = .ok (String.ofList (Settings.default.textBy Toml.standard)) := by
      unfold text
      rw [h, hsettled]
      exact FileTree.readText_of_lookup ((FileTree.locate_write hold _).trans hplace)
        (FileTree.lookup_write.trans (if_pos rfl))
    have hother : String.ofList (Settings.default.textBy Toml.standard) ≠ "images_root = \" \"\n" := by
      decide +kernel
    rw [htext]
    exact fun heq => hother (Except.ok.inj heq)
  have hpreview : (insertBy Packages.standard owner (ownFile.withOutput .preview)).writes =
      settingsWrites Packages.standard owner ownFile.options := by
    rw [insertBy_preview]
  refine ⟨⟨FileTree.readText_of_lookup hplace hold, hafter _ hpreview,
    hafter _ (insertBy_json Packages.standard owner ownFile).1⟩, ?_, by decide +kernel, by decide +kernel,
    by decide +kernel⟩
  have hnone : (planned? Packages.standard callless (firstLine.withOutput .apply)).isNone = true := by
    decide +kernel
  exact Option.isNone_iff_eq_none.1 hnone

end Run
end PugSize
