import PugSize.Proofs.Image.Bounds
import PugSize.Proofs.Edit.Slots
import PugSize.Proofs.Insert.Characters
import PugSize.Workspace.Images

/-!
The numbers that an edit writes. Images of a workspace have pixels, so has what is displayed of them, and
an edit writes nothing else into slots and properties: never a zero, and never more than the image has.
-/

namespace PugSize

variable {σ : Type}

/-- Whether all sizes that are found out have pixels. -/
def Resolver.InPixels (resolve : Resolver σ) : Prop :=
  ∀ image s s' size, resolve image s = (.ok size, s') → size.InPixels

theorem ImageSearch.inPixels_resolverBy (search : ImageSearch) {raster? : RasterReader}
    (hraster : raster?.IsNarrow) (walk : Walker) (choose : Chooser σ) :
    Resolver.InPixels (search.resolverBy raster? walk choose) := by
  intro image s s' size h
  have hbind (found : StateM σ (Option String))
      (f : Option String → StateM σ (Except ImageError Size)) :
      (found >>= f) s = f (found s).1 (found s).2 := rfl
  rw [resolverBy, hbind] at h
  cases hfound : (search.locateBy walk choose (String.ofList image) s).1 with
  | none =>
      rw [hfound] at h
      cases h
  | some path =>
      rw [hfound] at h
      obtain ⟨hmeasured, -⟩ := Prod.mk.inj h
      exact FileTree.inPixels_imageSizeBy hraster hmeasured

/-- Whether a text is a number of pixels in decimal notation: digits without a zero in front that make it up. -/
structure IsPixelText (t : Text) : Prop where
  digits : Script.IsDigits t
  front : t.head? ≠ some '0'
  value : IsPixels (Nat.ofDigitChars 10 t 0)

theorem head?_toDigits {n : Nat} (h : 0 < n) : (Nat.toDigits 10 n).head? ≠ some '0' := by
  induction n using Nat.strongRecOn with
  | ind n ih =>
      by_cases hn : n < 10
      · rw [Nat.toDigits_of_lt_base hn, List.head?_cons]
        interval_cases n <;> decide
      · rw [Nat.toDigits_of_base_le (by decide) (by omega),
          List.head?_append_of_ne_nil _ Nat.toDigits_ne_nil]
        exact ih (n / 10) (by omega) (by omega)

theorem isPixelText_decimal {n : Nat} (h : IsPixels n) : IsPixelText (decimal n) := by
  have hdigits : decimal n = Nat.toDigits 10 n := by
    rw [decimal, Nat.toString_eq_repr, Nat.toList_repr]
  refine ⟨isDigits_decimal n, ?_, ?_⟩
  · rw [hdigits]
    exact head?_toDigits h.1
  · rwa [hdigits, Nat.ofDigitChars_ten_toDigits]

/-- The numbers in a text: its runs of digits. -/
def numbers (t : Text) : List Text := (t.splitOnP fun c => !c.isDigit).filter fun run => !run.isEmpty

theorem numbers_skip {c : Char} (hc : c.isDigit = false) (t : Text) : numbers (c :: t) = numbers t := by
  have hsplit := @List.splitOnP_append_cons_of_forall_mem _ (fun c : Char => !c.isDigit) [] (List.forall_mem_nil _)
    c (by simp [hc]) t
  rw [List.nil_append] at hsplit
  rw [numbers, hsplit, List.filter_cons_of_neg (by simp), numbers]

theorem numbers_digits {t : Text} (h : Script.IsDigits t) : numbers t = [t] := by
  have hsplit := @List.splitOnP_eq_singleton _ (fun c : Char => !c.isDigit) t fun c hc => by simp [h.2 c hc]
  rw [numbers, hsplit, List.filter_cons_of_pos (by simp [h.1]), List.filter_nil]

theorem numbers_cons {t : Text} (h : Script.IsDigits t) {c : Char} (hc : c.isDigit = false) (rest : Text) :
    numbers (t ++ c :: rest) = t :: numbers rest := by
  have hsplit := @List.splitOnP_append_cons_of_forall_mem _ (fun c : Char => !c.isDigit) t
    (fun c hc => by simp [h.2 c hc]) c (by simp [hc]) rest
  rw [numbers, hsplit, List.filter_cons_of_pos (by simp [h.1]), numbers]

namespace Slots

theorem numbers_comma (t : Text) : numbers (", ".toList ++ t) = numbers t := by
  show numbers (',' :: ' ' :: t) = _
  rw [numbers_skip (by decide), numbers_skip (by decide)]

theorem numbers_pair (size : Size) :
    numbers (", ".toList ++ decimal size.width ++ ", ".toList ++ decimal size.height) =
      [decimal size.width, decimal size.height] := by
  rw [List.append_assoc, List.append_assoc, numbers_comma]
  show numbers (decimal size.width ++ ',' :: ' ' :: decimal size.height) = _
  rw [numbers_cons (isDigits_decimal _) (by decide), numbers_skip (by decide), numbers_digits (isDigits_decimal _)]

theorem numbers_fill {t : Text} {overwrite : Bool} {slot : Span} {n : Nat} {r : Replacement}
    (hr : r ∈ fill t overwrite slot (decimal n)) : numbers r.text = [decimal n] := by
  unfold fill at hr
  split at hr
  · rw [List.mem_singleton.1 hr]
    exact numbers_digits (isDigits_decimal n)
  · cases hr

/-- What is put into slots has no numbers but the width and the height. -/
theorem numbers_replacements {t : Text} {spans : List Span} {size : Size} {overwrite : Bool} {r : Replacement}
    (hr : r ∈ replacements t spans size overwrite) :
    numbers r.text ⊆ [decimal size.width, decimal size.height] := by
  unfold replacements at hr
  dsimp only at hr
  split at hr
  · cases hr
  · rename_i file
    have hquote : (quoteOf t file).isDigit = false := by
      unfold quoteOf
      split
      · decide
      · decide
    have htext : ", ".toList ++ [quoteOf t file, quoteOf t file] ++ ", ".toList ++ decimal size.width ++
        ", ".toList ++ decimal size.height = ", ".toList ++ (quoteOf t file :: quoteOf t file ::
          (", ".toList ++ decimal size.width ++ ", ".toList ++ decimal size.height)) := by simp
    rw [List.mem_singleton.1 hr, htext, Replacement.insertion, numbers_comma, numbers_skip hquote,
      numbers_skip hquote, numbers_pair]
    exact List.Subset.refl _
  · rw [List.mem_singleton.1 hr, Replacement.insertion, numbers_pair]
    exact List.Subset.refl _
  · obtain hr | hr := List.mem_append.1 hr
    · simp [numbers_fill hr]
    · rw [List.mem_singleton.1 hr, Replacement.insertion, numbers_comma, numbers_digits (isDigits_decimal _)]
      simp
  · obtain hr | hr := List.mem_append.1 hr
    · simp [numbers_fill hr]
    · simp [numbers_fill hr]

end Slots

/-- Whether the value of a property is a number of pixels in decimal notation. -/
def PropertyEdit.IsPixels (e : PropertyEdit) : Prop := IsPixelText e.value

theorem isPixels_of_sizeEdits {widthKey heightKey : Text} {size : Size} (h : size.InPixels) :
    ∀ e ∈ Insert.sizeEdits widthKey heightKey size, e.IsPixels := by
  simp only [Insert.sizeEdits, List.forall_mem_cons]
  exact ⟨isPixelText_decimal h.1, isPixelText_decimal h.2, List.forall_mem_nil _⟩

theorem isPixels_flatten {parts : List (List PropertyEdit)} (h : ∀ part ∈ parts, ∀ e ∈ part, e.IsPixels) :
    ∀ e ∈ parts.flatten, e.IsPixels := by
  intro e he
  obtain ⟨part, hpart, he⟩ := List.mem_flatten.1 he
  exact h part hpart e he

namespace Insert

/-- The new arguments of a call into which only numbers of pixels are written: into the slots behind the
file, as properties of the object with the options, or as properties of items, one object for each. -/
inductive WritesPixels (request : SizeRequest) (t : Text) : Shape → Text → Prop
  | slots {found size} (hread : PositionalArguments.read t = .ok found) (hsize : size.InPixels)
      (hnumbers : ∀ r ∈ Slots.replacements t found.spans size request.overwrite,
        ∀ number ∈ numbers r.text, IsPixelText number) :
      WritesPixels request t .positional (Slots.write t found.spans size request.overwrite)
  | properties {keys found edits} (hread : OptionArguments.read t keys = .ok found)
      (hedits : ∀ e ∈ edits, e.IsPixels) :
      WritesPixels request t (.options keys)
        (Replacement.applyAll t [objectReplacement t request found.span edits])
  | items {slots found replacements} (hread : CollectionArguments.read t slots = .ok found)
      (hreplacements : ∀ r ∈ replacements, ∃ item ∈ found.items, ∃ edits : List PropertyEdit,
        (∀ e ∈ edits, e.IsPixels) ∧ r = objectReplacement t request item.span edits) :
      WritesPixels request t (.collection slots) (Replacement.applyAll t replacements)

variable {resolve : Resolver σ} {request : SizeRequest} {t newText : Text} {s s' : σ}

theorem lookUp_eq_ok {image : Text} {size : Size}
    (h : (lookUp resolve image).run s = (.ok size, s')) : resolve image s = (.ok size, s') := by
  have hrun : (lookUp resolve image).run s =
      ((resolve image s).1.mapError .resolution, (resolve image s).2) := rfl
  rw [hrun] at h
  obtain ⟨hanswer, hafter⟩ := Prod.mk.inj h
  refine Prod.ext ?_ hafter
  cases hresolve : (resolve image s).1 with
  | error e =>
      rw [hresolve] at hanswer
      cases hanswer
  | ok measured =>
      rw [hresolve] at hanswer
      cases hanswer
      rfl

theorem inPixels_scaledSize (hresolve : resolve.InPixels) {image : Text} {size : Size}
    (h : (scaledSize resolve request image).run s = (.ok size, s')) : size.InPixels := by
  obtain ⟨measured, s₁, hmeasured, h⟩ := Plan.bind_eq_ok h
  cases h
  exact Size.inPixels_scale (hresolve image s _ measured (lookUp_eq_ok hmeasured)) request.display

theorem writesPixels_positional (hresolve : resolve.InPixels)
    (h : (intoPositional resolve request t).run s = (.ok newText, s')) :
    WritesPixels request t .positional newText := by
  obtain ⟨found, s₁, hread, h⟩ := Plan.bind_eq_ok h
  obtain ⟨size, s₂, hsize, h⟩ := Plan.bind_eq_ok h
  cases h
  have hpixels := inPixels_scaledSize hresolve hsize
  refine .slots (parsed_eq_ok hread) hpixels fun r hr number hnumber => ?_
  have hmem := Slots.numbers_replacements hr hnumber
  simp only [List.mem_cons, List.not_mem_nil, or_false] at hmem
  obtain rfl | rfl := hmem
  · exact isPixelText_decimal hpixels.1
  · exact isPixelText_decimal hpixels.2

theorem writesPixels_options (hresolve : resolve.InPixels) {keys : OptionKeys}
    (h : (intoOptions resolve request keys t).run s = (.ok newText, s')) :
    WritesPixels request t (.options keys) newText := by
  obtain ⟨found, s₁, hread, h⟩ := Plan.bind_eq_ok h
  obtain ⟨edits, s₂, hedits, h⟩ := Plan.bind_eq_ok h
  cases h
  refine .properties (parsed_eq_ok hread) ?_
  refine isPixels_flatten (Plan.forall_of_mapM ?_ hedits)
  rintro ⟨image, widthKey, heightKey⟩ - s edits s' hrole
  cases image with
  | none =>
      cases hrole
      nofun
  | some image =>
      obtain ⟨size, s₃, hsize, hrole⟩ := Plan.bind_eq_ok hrole
      cases hrole
      exact isPixels_of_sizeEdits (inPixels_scaledSize hresolve hsize)

theorem isPixels_itemEdits (hresolve : resolve.InPixels) {item : CollectionItem}
    {edits : List PropertyEdit} (h : (itemEdits resolve request item).run s = (.ok edits, s')) :
    ∀ e ∈ edits, e.IsPixels := by
  obtain ⟨parts, s₁, hparts, h⟩ := Plan.bind_eq_ok h
  cases h
  refine isPixels_flatten (Plan.forall_of_mapM ?_ hparts)
  intro m hm s edits s' hm
  obtain ⟨size, s₂, hsize, hm⟩ := Plan.bind_eq_ok hm
  cases hm
  exact isPixels_of_sizeEdits (inPixels_scaledSize hresolve hsize)

theorem writesPixels_collection (hresolve : resolve.InPixels) {slots : List ImageSlot}
    (h : (intoCollection resolve request slots t).run s = (.ok newText, s')) :
    WritesPixels request t (.collection slots) newText := by
  obtain ⟨found, s₁, hread, h⟩ := Plan.bind_eq_ok h
  obtain ⟨replacements, s₂, hreplacements, h⟩ := Plan.bind_eq_ok h
  cases h
  refine .items (parsed_eq_ok hread) (Plan.forall_of_mapM ?_ hreplacements)
  intro item hitem s r s' hr
  obtain ⟨edits, s₃, hedits, hr⟩ := Plan.bind_eq_ok hr
  cases hr
  exact ⟨item, List.mem_mergeSort.1 hitem, edits, isPixels_itemEdits hresolve hedits, rfl⟩

theorem writesPixels_intoShape (hresolve : resolve.InPixels) {shape : Shape}
    (h : (intoShape resolve request t shape).run s = (.ok newText, s')) :
    WritesPixels request t shape newText := by
  cases shape with
  | positional => exact writesPixels_positional hresolve h
  | options keys => exact writesPixels_options hresolve h
  | collection slots => exact writesPixels_collection hresolve h

/-- The numbers of a workspace, whatever its files hold and however raster images are read, if only in
numbers of 32 bits. What is measured has pixels; what is displayed of it has pixels, too, and not more of
them; and an edit writes nothing but numbers of pixels. -/
theorem writesPixels_plan {raster? : RasterReader} (hraster : raster?.IsNarrow) :
    (∀ (tree : FileTree) (home : Place) (path file : String) (refused : List String) (size : Size),
      tree.imageSizeBy raster? home path file refused = .ok size → size.InPixels ∧
        ∀ display, (size.scale display).InPixels ∧
          ((size.scale display).width ≤ size.width ∧ (size.scale display).height ≤ size.height) ∧
          display.Shows size.width (size.scale display).width ∧
          display.Shows size.height (size.scale display).height) ∧
    ∀ {σ : Type} (search : ImageSearch) (walk : Walker) (choose : Chooser σ) (b : Buffer)
      (request : SizeRequest) (registry : Registry) (s s' : σ) (edit : CallEdit),
      (plan b request registry (search.resolverBy raster? walk choose)).run s = (.ok edit, s') →
        ∃ call rule, MixinCall.locate? b request.cursor (names registry request) = some call ∧
          registry.lookup call.name = .rule rule ∧
          WritesPixels request call.arguments rule.shape edit.newText := by
  refine ⟨fun tree home path file refused size h => ?_,
    fun search walk choose b request registry s s' edit h => ?_⟩
  · have hsize := FileTree.inPixels_imageSizeBy hraster h
    refine ⟨hsize, fun display => ?_⟩
    obtain ⟨hwidth, hheight⟩ := display.shows_scale size
    exact ⟨Size.inPixels_scale hsize display, ⟨(hwidth.isPixels hsize.1).2, (hheight.isPixels hsize.2).2⟩,
      hwidth, hheight⟩
  · obtain ⟨call, rule, hcall, hrule, hshape, -, -⟩ := plan_eq_ok h
    exact ⟨call, rule, hcall, hrule,
      writesPixels_intoShape (search.inPixels_resolverBy hraster walk choose) hshape⟩

/-- A workspace with one image. -/
def oneImage : ImageSearch := ⟨⟨[(["r", "a.png"], ⟨#[]⟩)], []⟩, [], "/r", "/r", false, []⟩

/-- An image that is one pixel wide, at half its size, in slots and as properties. -/
theorem writesPixels_plan_sliver :
    let sliver : RasterReader := fun _ _ => some ⟨1, 3⟩
    let registry := Registry.ofEntries Registry.starterEntries
    let request : SizeRequest := ⟨⟨0, 3⟩, .half, true, []⟩
    let noChoice : Chooser Unit := fun _ _ => pure none
    let written (document : String) : Except SizingError CallEdit × Unit :=
      (plan (Buffer.ofText document.toList) request registry
        (oneImage.resolverBy sliver FileTree.walked noChoice)).run ()
    oneImage.tree.imageSizeBy sliver [] "/r/a.png" "a.png" [] = .ok ⟨1, 3⟩ ∧
      (⟨1, 3⟩ : Size).InPixels ∧ (Size.scale ⟨1, 3⟩ .half).InPixels ∧
      written "+img('a.png')" = (.ok ⟨"img".toList, ⟨0, 5⟩, ⟨0, 12⟩, "'a.png', '', 1, 2".toList⟩, ()) ∧
      WritesPixels request "'a.png'".toList .positional "'a.png', '', 1, 2".toList ∧
      written "+picture(\x7bpc: 'a.png', height: 9\x7d)" =
        (.ok ⟨"picture".toList, ⟨0, 9⟩, ⟨0, 33⟩, "\x7bpc: 'a.png', height: 2, width: 1\x7d".toList⟩, ()) ∧
      WritesPixels request "\x7bpc: 'a.png', height: 9\x7d".toList (.options OptionKeys.standard)
        "\x7bpc: 'a.png', height: 2, width: 1\x7d".toList := by
  intro sliver registry request noChoice written
  have hnarrow : sliver.IsNarrow := by
    rintro extension content size hsize
    cases hsize
    exact ⟨by decide, by decide⟩
  have hmeasured : oneImage.tree.imageSizeBy sliver [] "/r/a.png" "a.png" [] = .ok ⟨1, 3⟩ := by
    decide +kernel
  have hslots : written "+img('a.png')" =
      (.ok ⟨"img".toList, ⟨0, 5⟩, ⟨0, 12⟩, "'a.png', '', 1, 2".toList⟩, ()) := by
    decide +kernel
  have hproperties : written "+picture(\x7bpc: 'a.png', height: 9\x7d)" =
      (.ok ⟨"picture".toList, ⟨0, 9⟩, ⟨0, 33⟩, "\x7bpc: 'a.png', height: 2, width: 1\x7d".toList⟩, ()) := by
    decide +kernel
  obtain ⟨hsize, hplans⟩ := writesPixels_plan hnarrow
  obtain ⟨hpixels, hshown⟩ := hsize _ _ _ _ _ _ hmeasured
  obtain ⟨call, rule, hcall, hrule, hwrites⟩ := hplans _ _ _ _ _ _ _ _ _ hslots
  obtain ⟨call', rule', hcall', hrule', hwrites'⟩ := hplans _ _ _ _ _ _ _ _ _ hproperties
  have hlocate : MixinCall.locate? (Buffer.ofText "+img('a.png')".toList) ⟨0, 3⟩ (names registry request) =
      some ⟨"img".toList, ⟨0, 0⟩, ⟨0, 13⟩, "+img('a.png')".toList, "'a.png'".toList, 5⟩ := by
    decide +kernel
  have hlocate' : MixinCall.locate? (Buffer.ofText "+picture(\x7bpc: 'a.png', height: 9\x7d)".toList) ⟨0, 3⟩
      (names registry request) = some ⟨"picture".toList, ⟨0, 0⟩, ⟨0, 34⟩,
        "+picture(\x7bpc: 'a.png', height: 9\x7d)".toList, "\x7bpc: 'a.png', height: 9\x7d".toList, 9⟩ := by
    decide +kernel
  have hlookup : registry.lookup "img".toList = .rule ⟨"img".toList, .positional⟩ := by decide +kernel
  have hlookup' : registry.lookup "picture".toList = .rule ⟨"picture".toList, .options OptionKeys.standard⟩ := by
    decide +kernel
  obtain rfl := Option.some.inj (hcall.symm.trans hlocate)
  obtain rfl := Option.some.inj (hcall'.symm.trans hlocate')
  obtain rfl := Lookup.rule.inj (hrule.symm.trans hlookup)
  obtain rfl := Lookup.rule.inj (hrule'.symm.trans hlookup')
  exact ⟨hmeasured, hpixels, (hshown .half).1, hslots, hwrites, hproperties, hwrites'⟩

end Insert
end PugSize
