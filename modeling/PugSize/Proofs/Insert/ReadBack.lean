import PugSize.Proofs.Insert.Reread

/-!
Sizes that are read back under the keys that a configuration gives. A key that is added is written as it stands, so
a size under an identifier or a number is read back, but of a key such as `data-width` the reader takes the front
alone. Where such a key stands in quotes already, only its value is written.
-/

namespace PugSize.Insert

open Script ObjectText

variable {σ : Type}

/-- What is written into an options object without comments is read back: where every image that the reader
finds has a size, the new text is accepted with the same images, and each of them has a width and a height.
A key of these sizes is an identifier or a number, or it stands in the object already where the reader takes it
for the key; and where one has to be added, the comma behind the last property is not hidden from the place of
it. -/
theorem intoOptions_readBack {keys : OptionKeys}
    (hdistinct : [keys.pc, keys.sp, keys.pcWidth, keys.pcHeight, keys.spWidth, keys.spHeight].Nodup)
    {resolve : Resolver σ} {request : SizeRequest} {t : Text} {found : OptionArguments}
    (hread : OptionArguments.read t keys = .ok found) (huncommented : comments t = [])
    (hanswers : ∀ image ∈ found.pc.toList ++ found.sp.toList, Answers resolve image)
    (hkeys : ∀ key ∈ (found.target keys).keys,
      IsBare key ∨ IsLabel key ∧ IsRead (t.slice found.span) key)
    (hcomma : (∃ key ∈ (found.target keys).keys, valueSpan? (t.slice found.span) key = none) →
      SeesComma (t.slice found.span)) (s : σ) :
    ∃ t' s' found', (intoOptions resolve request keys t).run s = (.ok t', s') ∧
      OptionArguments.read t' keys = .ok found' ∧ found.SizedAs found' := by
  have hapart : ∀ key ∈ (Shape.options keys).imageKeys, key ∉ (found.target keys).keys := by
    have hsplit : ((Shape.options keys).imageKeys ++ (Shape.options keys).sizeKeys).Nodup := hdistinct
    intro key hkey hsize
    exact (List.nodup_append.1 hsplit).2.2 key hkey key (found.target_subset keys key hsize) rfl
  obtain ⟨props, span, hargs, rfl, -⟩ := OptionArguments.read_eq_ok.1 hread
  have hclear := @clearInRows_of_comments request.overwrite _ _ hkeys
    (comments_first hargs rfl huncommented) hcomma
  obtain ⟨t', s', hrun, found', hagain, hsized⟩ := intoOptions_sized hread hanswers hapart hclear s
  exact ⟨t', s', found', hrun, hagain, hsized⟩

/-- Sizes are written over an array under a quoted key and over a number under a number, and the others, one of
them under a number, are added behind a comma. -/
theorem intoOptions_readBack_quoted :
    let t := "\x7b pc: \"a.jpg\", sp: 'b.jpg', \"data-w\": [1], 7: 2, \x7d".toList
    let keys : OptionKeys :=
      ⟨"pc".toList, "sp".toList, "data-w".toList, "h".toList, "7".toList, "8".toList⟩
    let resolve : Resolver Unit := fun _ => pure (.ok ⟨640, 480⟩)
    let request : SizeRequest := ⟨⟨0, 0⟩, .full, true, []⟩
    let found : OptionArguments := ⟨⟨0, 50⟩, some "a.jpg".toList, some "b.jpg".toList, true, false, true, false⟩
    [keys.pc, keys.sp, keys.pcWidth, keys.pcHeight, keys.spWidth, keys.spHeight].Nodup ∧
      OptionArguments.read t keys = .ok found ∧ comments t = [] ∧
      (∀ image ∈ found.pc.toList ++ found.sp.toList, Answers resolve image) ∧
      (∀ key ∈ (found.target keys).keys, IsBare key ∨ IsLabel key ∧ IsRead (Text.slice t found.span) key) ∧
      SeesComma (Text.slice t found.span) ∧
      ∃ t' s' found', (intoOptions resolve request keys t).run () = (.ok t', s') ∧
        OptionArguments.read t' keys = .ok found' ∧ found.SizedAs found' := by
  have hread : OptionArguments.read "\x7b pc: \"a.jpg\", sp: 'b.jpg', \"data-w\": [1], 7: 2, \x7d".toList
      ⟨"pc".toList, "sp".toList, "data-w".toList, "h".toList, "7".toList, "8".toList⟩ =
      .ok ⟨⟨0, 50⟩, some "a.jpg".toList, some "b.jpg".toList, true, false, true, false⟩ := by cbv
  have huncommented : comments "\x7b pc: \"a.jpg\", sp: 'b.jpg', \"data-w\": [1], 7: 2, \x7d".toList = [] := by cbv
  have hslice : Text.slice "\x7b pc: \"a.jpg\", sp: 'b.jpg', \"data-w\": [1], 7: 2, \x7d".toList ⟨0, 50⟩ =
      "\x7b pc: \"a.jpg\", sp: 'b.jpg', \"data-w\": [1], 7: 2, \x7d".toList := by cbv
  have hargs : arguments? "\x7b pc: \"a.jpg\", sp: 'b.jpg', \"data-w\": [1], 7: 2, \x7d".toList =
      some [.object
        [⟨some "pc".toList, ⟨2, 13⟩, .str "a.jpg".toList ⟨6, 13⟩⟩,
         ⟨some "sp".toList, ⟨15, 26⟩, .str "b.jpg".toList ⟨19, 26⟩⟩,
         ⟨some "data-w".toList, ⟨28, 41⟩, .array [.number ⟨39, 40⟩] ⟨38, 41⟩⟩,
         ⟨some "7".toList, ⟨43, 47⟩, .number ⟨46, 47⟩⟩] ⟨0, 50⟩] := by cbv
  have hcomma : SeesComma
      (Text.slice "\x7b pc: \"a.jpg\", sp: 'b.jpg', \"data-w\": [1], 7: 2, \x7d".toList ⟨0, 50⟩) := by
    decide +kernel
  have hquoted : IsRead "\x7b pc: \"a.jpg\", sp: 'b.jpg', \"data-w\": [1], 7: 2, \x7d".toList "data-w".toList := by
    refine ⟨_, 2, _, hargs, ⟨rfl, ⟨by decide +kernel, by decide +kernel⟩, fun j q hj hq hseen => ?_⟩, rfl⟩
    obtain _ | _ | _ | _ | j := j
    · omega
    · omega
    · omega
    · cases hq
      exact absurd hseen.name (by decide +kernel)
    · cases hq
  have hkeys : ∀ key ∈ ["data-w".toList, "h".toList, "7".toList, "8".toList], IsBare key ∨ IsLabel key ∧
      IsRead (Text.slice "\x7b pc: \"a.jpg\", sp: 'b.jpg', \"data-w\": [1], 7: 2, \x7d".toList ⟨0, 50⟩) key := by
    rw [hslice]
    simp only [List.forall_mem_cons]
    exact ⟨.inr ⟨⟨⟨_, _, rfl, by decide⟩, by simp [Text.isBlank], by simp⟩, hquoted⟩,
      .inl (.inl ⟨⟨_, _, rfl, by decide⟩, List.all_eq_true.1 (by decide)⟩), .inl (.inr rfl),
      .inl (.inr rfl), List.forall_mem_nil _⟩
  have hdistinct : ["pc".toList, "sp".toList, "data-w".toList, "h".toList, "7".toList, "8".toList].Nodup := by
    decide
  intro t keys resolve request found
  have hanswers : ∀ image ∈ found.pc.toList ++ found.sp.toList, Answers resolve image :=
    fun image _ s => ⟨_, s, rfl⟩
  exact ⟨hdistinct, hread, huncommented, hanswers, hkeys, hcomma,
    @intoOptions_readBack Unit keys hdistinct resolve request t found hread huncommented hanswers hkeys
      (fun _ => hcomma) ()⟩

/-- A key with a hyphen is written as it stands, and the reader takes what stands before the hyphen for
the key: the width is not read back. -/
theorem intoOptions_loses_hyphen :
    (Registry.ofEntries [.table (Registry.stringTable
        [("name", "picture"), ("pc_width_key", "data-width"), ("type", "optionsObject")])]).rules =
      [⟨"picture".toList, .options ⟨"pc".toList, "sp".toList, "data-width".toList, "height".toList,
        "widthSp".toList, "heightSp".toList⟩⟩] ∧
    ["pc".toList, "sp".toList, "data-width".toList, "height".toList, "widthSp".toList,
      "heightSp".toList].Nodup ∧
    comments "\x7b pc: \"a.jpg\" \x7d".toList = [] ∧
    OptionArguments.read "\x7b pc: \"a.jpg\" \x7d".toList
        ⟨"pc".toList, "sp".toList, "data-width".toList, "height".toList, "widthSp".toList, "heightSp".toList⟩ =
      .ok ⟨⟨0, 15⟩, some "a.jpg".toList, none, false, false, false, false⟩ ∧
    intoOptions (fun _ => pure (.ok ⟨640, 480⟩)) ⟨⟨0, 0⟩, .full, true, []⟩
        ⟨"pc".toList, "sp".toList, "data-width".toList, "height".toList, "widthSp".toList, "heightSp".toList⟩
        "\x7b pc: \"a.jpg\" \x7d".toList () =
      (.ok "\x7b pc: \"a.jpg\", data-width: 640, height: 480 \x7d".toList, ()) ∧
    OptionArguments.read "\x7b pc: \"a.jpg\", data-width: 640, height: 480 \x7d".toList
        ⟨"pc".toList, "sp".toList, "data-width".toList, "height".toList, "widthSp".toList, "heightSp".toList⟩ =
      .ok ⟨⟨0, 45⟩, some "a.jpg".toList, none, false, true, false, false⟩ := by
  refine ⟨by decide +kernel, by decide, by cbv, by cbv, by cbv, by decide +kernel⟩

end PugSize.Insert
