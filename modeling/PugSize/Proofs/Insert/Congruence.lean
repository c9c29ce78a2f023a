import PugSize.Proofs.Insert.Frame

/-!
Plans that differ in how images are looked up. What relates two lookups of every image, and is kept
by doing one thing after the other, relates the plans.
-/

namespace PugSize.Insert

variable {σ : Type}

/-- A relation between plans that is kept when plans are put together. -/
structure Plan.Congruence (R : ∀ {α : Type}, Plan σ α → Plan σ α → Prop) : Prop where
  pure : ∀ {α : Type} (a : α), R (Pure.pure a) (Pure.pure a)
  fail : ∀ {α : Type} (e : SizingError), R (throw e : Plan σ α) (throw e)
  bind : ∀ {α β : Type} {x y : Plan σ α} {f g : α → Plan σ β}, R x y → (∀ a, R (f a) (g a)) →
    R (x >>= f) (y >>= g)

section

variable {R : ∀ {α : Type}, Plan σ α → Plan σ α → Prop} {resolve resolve' : Resolver σ}

theorem Plan.Congruence.parsed (h : Plan.Congruence R) {α : Type} (result : Except ArgumentError α) :
    R (parsed result) (parsed result) := by
  cases result with
  | ok a => exact h.pure a
  | error e => exact h.fail (.arguments e)

theorem Plan.Congruence.mapM (h : Plan.Congruence R) {α β : Type} {f g : α → Plan σ β}
    (xs : List α) (hfg : ∀ x, R (f x) (g x)) : R (xs.mapM f) (xs.mapM g) := by
  induction xs with
  | nil =>
      rw [List.mapM_nil, List.mapM_nil]
      exact h.pure []
  | cons x xs ih =>
      rw [List.mapM_cons, List.mapM_cons]
      exact h.bind (hfg x) fun b => h.bind ih fun bs => h.pure (b :: bs)

variable (h : Plan.Congruence R)
  (hlookUp : ∀ image, R (lookUp resolve image) (lookUp resolve' image))
include h hlookUp

theorem scaledSize_congruence (request : SizeRequest) (image : Text) :
    R (scaledSize resolve request image) (scaledSize resolve' request image) :=
  h.bind (hlookUp image) fun size => h.pure (size.scale request.display)

theorem intoOptions_congruence (request : SizeRequest) (keys : OptionKeys) (t : Text) :
    R (intoOptions resolve request keys t) (intoOptions resolve' request keys t) := by
  refine h.bind (h.parsed _) fun found => h.bind (h.mapM _ ?_) fun edits => h.pure _
  rintro ⟨image, widthKey, heightKey⟩
  cases image with
  | none => exact h.pure []
  | some image =>
      exact h.bind (scaledSize_congruence h hlookUp request image) fun size => h.pure _

theorem itemEdits_congruence (request : SizeRequest) (item : CollectionItem) :
    R (itemEdits resolve request item) (itemEdits resolve' request item) := by
  refine h.bind (h.mapM _ fun m => ?_) fun edits => h.pure edits.flatten
  exact h.bind (scaledSize_congruence h hlookUp request m.image) fun size => h.pure _

theorem intoShape_congruence (request : SizeRequest) (t : Text) (shape : Shape) :
    R (intoShape resolve request t shape) (intoShape resolve' request t shape) := by
  cases shape with
  | positional =>
      refine h.bind (h.parsed _) fun found => ?_
      exact h.bind (scaledSize_congruence h hlookUp request found.file) fun size => h.pure _
  | options keys => exact intoOptions_congruence h hlookUp request keys t
  | collection slots =>
      refine h.bind (h.parsed _) fun found => h.bind (h.mapM _ fun item => ?_) fun rs => h.pure _
      exact h.bind (itemEdits_congruence h hlookUp request item) fun edits => h.pure _

theorem plan_congruence (b : Buffer) (request : SizeRequest) (registry : Registry) :
    R (plan b request registry resolve) (plan b request registry resolve') := by
  unfold plan
  split
  · split
    · exact h.fail _
    · exact h.fail _
    · exact h.bind (intoShape_congruence h hlookUp request _ _) fun newText => h.pure _
  · exact h.fail _

end

end PugSize.Insert
