import PugSize.Proofs.Insert.Frame
import PugSize.Proofs.Mixin.Registry

/-!
Plans that fail. Only looking up an image can fail once a call was found and its arguments were read,
so every other failure comes before the first question and is the same whatever is looked up. A rule is
missing only for a name that was asked for besides those of the registry.
-/

namespace PugSize.Insert

variable {σ : Type}

/-- Whether a plan fails in no other way than in looking up an image. -/
def Plan.FailsInLookUp {α : Type} (x : Plan σ α) : Prop :=
  ∀ s s' e, x.run s = (.error e, s') → ∃ error, e = .resolution error

namespace Plan.FailsInLookUp

variable {α β : Type}

theorem pure (a : α) : Plan.FailsInLookUp (Pure.pure a : Plan σ α) := by
  intro s s' e h
  cases h

theorem bind {x : Plan σ α} {f : α → Plan σ β} (hx : x.FailsInLookUp)
    (hf : ∀ a, (f a).FailsInLookUp) : (x >>= f).FailsInLookUp := by
  intro s s' e h
  rw [Plan.run_bind] at h
  split at h
  · exact hf _ _ _ _ h
  · rename_i hfailed
    cases h
    exact hx _ _ _ hfailed

theorem mapM {f : α → Plan σ β} (h : ∀ a, (f a).FailsInLookUp) (as : List α) :
    (as.mapM f).FailsInLookUp := by
  induction as with
  | nil =>
      rw [List.mapM_nil]
      exact pure []
  | cons a as ih =>
      rw [List.mapM_cons]
      exact (h a).bind fun b => ih.bind fun bs => pure (b :: bs)

theorem lookUp (resolve : Resolver σ) (image : Text) : (lookUp resolve image).FailsInLookUp := by
  intro s s' e h
  have hrun : (Insert.lookUp resolve image).run s =
      ((resolve image s).1.mapError .resolution, (resolve image s).2) := rfl
  rw [hrun] at h
  obtain ⟨hanswer, -⟩ := Prod.mk.inj h
  cases hresolve : (resolve image s).1 with
  | ok size =>
      rw [hresolve] at hanswer
      cases hanswer
  | error error =>
      rw [hresolve] at hanswer
      cases hanswer
      exact ⟨error, rfl⟩

theorem scaledSize (resolve : Resolver σ) (request : SizeRequest) (image : Text) :
    (scaledSize resolve request image).FailsInLookUp :=
  (lookUp resolve image).bind fun _ => pure _

theorem itemEdits (resolve : Resolver σ) (request : SizeRequest) (item : CollectionItem) :
    (itemEdits resolve request item).FailsInLookUp := by
  refine (mapM (fun m => ?_) _).bind fun edits => pure _
  exact (scaledSize resolve request m.image).bind fun size => pure _

end Plan.FailsInLookUp

/-- Whether a plan, whatever is looked up, either fails at once in one of the given ways or fails only in
looking up. -/
def Decided {α : Type} (refusal : SizingError → Prop) (x : ∀ {σ : Type}, Resolver σ → Plan σ α) : Prop :=
  (∃ e, refusal e ∧ ∀ {σ : Type} (resolve : Resolver σ), x resolve = throw e) ∨
    ∀ {σ : Type} (resolve : Resolver σ), (x resolve).FailsInLookUp

/-- Reading arguments fails at once or not at all. -/
theorem decided_parsed {α β : Type} (result : Except ArgumentError α)
    {f : ∀ {σ : Type}, Resolver σ → α → Plan σ β}
    (hf : ∀ {σ : Type} (resolve : Resolver σ) (a : α), (f resolve a).FailsInLookUp) :
    Decided (∃ error, · = .arguments error) fun resolve => parsed result >>= f resolve := by
  cases result with
  | error error => exact .inl ⟨.arguments error, ⟨error, rfl⟩, fun resolve => rfl⟩
  | ok a => exact .inr fun resolve => (Plan.FailsInLookUp.pure a).bind (hf resolve)

theorem decided_intoShape (request : SizeRequest) (t : Text) (shape : Shape) :
    Decided (∃ error, · = .arguments error) fun resolve => intoShape resolve request t shape := by
  cases shape with
  | positional =>
      refine decided_parsed _ fun resolve found => ?_
      exact (Plan.FailsInLookUp.scaledSize resolve request _).bind fun size => .pure _
  | options keys =>
      refine decided_parsed _ fun resolve found => (Plan.FailsInLookUp.mapM ?_ _).bind fun _ => .pure _
      rintro ⟨image, widthKey, heightKey⟩
      cases image with
      | none => exact .pure _
      | some image =>
          exact (Plan.FailsInLookUp.scaledSize resolve request image).bind fun size => .pure _
  | collection slots =>
      refine decided_parsed _ fun resolve found => (Plan.FailsInLookUp.mapM (fun item => ?_) _).bind
        fun _ => .pure _
      exact (Plan.FailsInLookUp.itemEdits resolve request item).bind fun edits => .pure _

/-- The refusals that need no image: no call, a call without a rule or without a shape, and arguments
that do not have the shape of the rule. A rule is missing for a name that is looked for. -/
def Refused (request : SizeRequest) (registry : Registry) : SizingError → Prop
  | .noCall => True
  | .unknownRule name => registry.lookup name = .unknown ∧ name ∈ names registry request
  | .unsupportedShape name typeName =>
      ∃ u, registry.lookup name = .unsupported u ∧ u.typeName = typeName
  | .arguments _ => True
  | .resolution _ => False

theorem decided_plan (b : Buffer) (request : SizeRequest) (registry : Registry) :
    Decided (Refused request registry) fun resolve => plan b request registry resolve := by
  unfold plan
  split
  · rename_i call hlocate
    obtain ⟨i, line, column, -, hcandidate, -⟩ := MixinCall.locate?_eq_some hlocate
    split
    · rename_i hlookup
      exact .inl ⟨.unknownRule call.name, ⟨hlookup, (MixinCall.mem_candidates hcandidate).1⟩,
        fun resolve => rfl⟩
    · rename_i u hlookup
      exact .inl ⟨.unsupportedShape call.name u.typeName, ⟨u, hlookup, rfl⟩, fun resolve => rfl⟩
    · rename_i rule hlookup
      obtain ⟨e, ⟨error, rfl⟩, hfailed⟩ | hshape :=
        decided_intoShape request call.arguments rule.shape
      · refine .inl ⟨.arguments error, trivial, fun resolve => ?_⟩
        simp only [hfailed resolve]
        rfl
      · exact .inr fun resolve => (hshape resolve).bind fun newText => .pure _
  · exact .inl ⟨.noCall, trivial, fun resolve => rfl⟩

/-- The names that are looked for are those of the registry and those asked for besides. -/
theorem mem_names {registry : Registry} {request : SizeRequest} {name : Text}
    (h : name ∈ names registry request) :
    name ∈ registry.names ∨ ∃ extra ∈ request.extraNames, RuleEntry.plainName extra = name := by
  unfold names at h
  generalize registry.names = known at h ⊢
  generalize request.extraNames = extras at h ⊢
  induction extras generalizing known with
  | nil => exact .inl h
  | cons extra extras ih =>
      rw [List.foldl_cons] at h
      obtain hknown | ⟨later, hlater, hname⟩ := ih _ h
      · dsimp only at hknown
        split at hknown
        · exact .inl hknown
        · obtain hknown | hnew := List.mem_append.1 hknown
          · exact .inl hknown
          · exact .inr ⟨extra, List.mem_cons_self, (List.mem_singleton.1 hnew).symm⟩
      · exact .inr ⟨later, List.mem_cons_of_mem _ hlater, hname⟩

/-- A plan over the registry made of entries. The registry is well formed; a rule is missing only for a
name that was asked for and that the registry does not list; and a plan that fails in another way than in
looking up an image has looked up none, so it fails alike with every way of looking up. -/
theorem plan_ofEntries (entries : List Toml.Value) :
    (Registry.ofEntries entries).WellFormed ∧
      ∀ {σ : Type} (b : Buffer) (request : SizeRequest) (resolve : Resolver σ) (s s' : σ)
        (e : SizingError),
        (plan b request (Registry.ofEntries entries) resolve).run s = (.error e, s') →
          (∀ name, e = .unknownRule name → name ∉ (Registry.ofEntries entries).names ∧
            ∃ extra ∈ request.extraNames, RuleEntry.plainName extra = name) ∧
          ((∀ error, e ≠ .resolution error) → s' = s ∧
            ∀ {τ : Type} (resolve' : Resolver τ) (t : τ),
              (plan b request (Registry.ofEntries entries) resolve').run t = (.error e, t)) := by
  refine ⟨Registry.wellFormed_ofEntries entries, ?_⟩
  intro σ b request resolve s s' e h
  obtain ⟨e', hrefused, hfailed⟩ | hlate := decided_plan b request (Registry.ofEntries entries)
  · dsimp only at hfailed
    rw [hfailed resolve] at h
    cases h
    refine ⟨?_, fun _ => ⟨rfl, fun resolve' t => by rw [hfailed resolve']; rfl⟩⟩
    rintro name rfl
    obtain ⟨hunknown, hname⟩ := hrefused
    have hlisted : name ∉ (Registry.ofEntries entries).names :=
      fun hmem => Registry.mem_names_iff_lookup.1 hmem hunknown
    exact ⟨hlisted, (mem_names hname).resolve_left hlisted⟩
  · obtain ⟨error, rfl⟩ := hlate resolve s s' e h
    exact ⟨nofun, fun hother => absurd rfl (hother error)⟩

/-- A name asked for besides those of the starter rules, and a way of looking up that notes each image. -/
theorem plan_ofEntries_slider :
    let registry := Registry.ofEntries Registry.starterEntries
    let request : SizeRequest := ⟨⟨0, 3⟩, .full, true, ["+slider(".toList]⟩
    let noted : Resolver (List Text) := fun image => do
      modify (image :: ·)
      return .error (.notFound (String.ofList image))
    (plan (Buffer.ofText "+slider(['a.jpg'])".toList) request registry noted).run [] =
        (.error (.unknownRule "slider".toList), []) ∧
      "slider".toList ∉ registry.names ∧
        ∃ extra ∈ request.extraNames, RuleEntry.plainName extra = "slider".toList := by
  intro registry request noted
  have hnames : names registry request =
      ["img".toList, "picture".toList, "c_cards".toList, "slider".toList] := by decide +kernel
  have hlookup : registry.lookup "slider".toList = .unknown := by decide +kernel
  have hlocate : MixinCall.locate? (Buffer.ofText "+slider(['a.jpg'])".toList) ⟨0, 3⟩
      ["img".toList, "picture".toList, "c_cards".toList, "slider".toList] =
        some ⟨"slider".toList, ⟨0, 0⟩, ⟨0, 18⟩, "+slider(['a.jpg'])".toList, "['a.jpg']".toList, 8⟩ := by
    cbv
  have hrun : (plan (Buffer.ofText "+slider(['a.jpg'])".toList) request registry noted).run [] =
      (.error (.unknownRule "slider".toList), []) := by
    rw [plan, hnames, hlocate]
    simp only [hlookup]
    rfl
  have hrefused := ((plan_ofEntries Registry.starterEntries).2 _ request noted _ _ _ hrun).1
  exact ⟨hrun, hrefused _ rfl⟩

end PugSize.Insert
