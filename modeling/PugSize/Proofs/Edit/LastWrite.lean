import PugSize.Proofs.Edit.ObjectEdits
import PugSize.Proofs.Edit.Renumbered

/-!
Numbers written into an object without comments twice, with the same keys. The second ones are left, as if they
had been written alone, unless an indentation has been looked up in a line that they overwrite.
-/

namespace PugSize

open Script

namespace ObjectText

theorem forall_same_keys {edits edits' : List PropertyEdit}
    (h : edits'.map PropertyEdit.key = edits.map PropertyEdit.key) (P : Text → Prop)
    (hedits : ∀ e ∈ edits, P e.key) : ∀ e ∈ edits', P e.key := by
  intro e' he'
  have hmem : e'.key ∈ edits.map PropertyEdit.key := h ▸ List.mem_map_of_mem he'
  obtain ⟨e, he, hkey⟩ := List.mem_map.1 hmem
  exact hkey ▸ hedits e he

theorem distinct_same_keys {edits edits' : List PropertyEdit}
    (h : edits'.map PropertyEdit.key = edits.map PropertyEdit.key)
    (hdistinct : edits.Pairwise fun d e => d.key ≠ e.key) : edits'.Pairwise fun d e => d.key ≠ e.key := by
  rw [← List.pairwise_map] at hdistinct ⊢
  rwa [h]

section

variable {t : Text} {m : Margins} {cores : List (List Node)} (h : Shaped t m cores) {edits edits' : List PropertyEdit}
  (hdistinct : edits.Pairwise fun d e => d.key ≠ e.key) (hkeys : ∀ e ∈ edits, IsKey e.key)
  (hvalues : ∀ e ∈ edits, IsDigits e.value) (hvalues' : ∀ e ∈ edits', IsDigits e.value)
  (hsame : edits'.map PropertyEdit.key = edits.map PropertyEdit.key) (hready : ∀ e ∈ edits, Ready e.key cores)

include h hdistinct hkeys hvalues hvalues' hsame hready

/-- The second numbers are left alone if and only if the first ones have got the same indentations. -/
theorem Shaped.overwritten_iff (overwrite : Bool) :
    writeAll true (writeAll overwrite t edits) edits' = writeAll true t edits' ↔
      addedIndents overwrite t edits = addedIndents true t edits' := by
  have hdistinct' := distinct_same_keys hsame hdistinct
  have hkeys' := forall_same_keys hsame IsKey hkeys
  obtain ⟨cores₁, hturns, h₁⟩ := h.turns hdistinct hkeys hvalues hready overwrite
  have hsettled := forall_same_keys hsame (Settled · cores₁) (hturns.settled hdistinct hvalues)
  obtain ⟨cores₂, hturns₂, h₂⟩ := h₁.turns hdistinct' hkeys' hvalues' (fun e he => (hsettled e he).ready) true
  have hready' := forall_same_keys hsame (Ready · cores) hready
  obtain ⟨cores₂', hturns₂', h₂'⟩ := h.turns hdistinct' hkeys' hvalues' hready' true
  obtain rfl := (hturns.absorb hturns₂ hsame hdistinct hvalues).unique hturns₂'
  rw [h₁.addedIndents_settled hdistinct' hkeys' hvalues' hsettled, List.foldl_nil] at h₂
  constructor
  · intro heq
    rw [heq] at h₂
    exact Margins.eq_of_leads (h₂.leads_eq h₂')
  · intro heq
    rw [heq] at h₂
    exact h₂.text_eq h₂'

theorem Shaped.kept (overwrite : Bool) :
    writeAll false (writeAll overwrite t edits) edits' = writeAll overwrite t edits := by
  obtain ⟨cores₁, hturns, h₁⟩ := h.turns hdistinct hkeys hvalues hready overwrite
  exact h₁.writeAll_settled (forall_same_keys hsame IsKey hkeys) hvalues'
    (forall_same_keys hsame (Settled · cores₁) (hturns.settled hdistinct hvalues))

end

/-- Of numbers that are written into an object without comments twice, the second ones are left if they may
overwrite, and the first ones if not. If the first ones did not overwrite, the second ones are left as if they had
been written alone if and only if the properties that are added get the same indentations both times. -/
theorem writeAll_twice {t : Text} {props : List (Property Expr)} {edits edits' : List PropertyEdit}
    (hobject : arguments? t = some [.object props ⟨0, t.width⟩])
    (hcomment : ∀ l ∈ (scan t).1, l.kind ≠ .trivia .lineComment ∧ l.kind ≠ .trivia .blockComment)
    (hspace : ∀ c ∈ t, isSkipped c = true → c = ' ' ∨ c = '\t' ∨ c = '\n')
    (hdistinct : edits.Pairwise fun d e => d.key ≠ e.key)
    (hsame : edits'.map PropertyEdit.key = edits.map PropertyEdit.key)
    (hkeys : ∀ e ∈ edits, IsKey e.key) (hvalues : ∀ e ∈ edits, IsDigits e.value)
    (hvalues' : ∀ e ∈ edits', IsDigits e.value)
    (hwritable : ∀ e ∈ edits, Writable t props e.key) :
    writeAll true (writeAll true t edits) edits' = writeAll true t edits' ∧
      (writeAll true (writeAll false t edits) edits' = writeAll true t edits' ↔
        addedIndents false t edits = addedIndents true t edits') ∧
      ∀ overwrite, writeAll false (writeAll overwrite t edits) edits' = writeAll overwrite t edits := by
  obtain ⟨rows, rest, hlayout, hread⟩ := arguments?_object.1 hobject
  have hplain := hlayout.plain hcomment hspace
  have h : Shaped t (marginsOf rows rest) (rows.map Row.core) := ⟨rows, rest, hplain, rfl, rfl⟩
  have hready : ∀ e ∈ edits, Ready e.key (rows.map Row.core) :=
    fun e he => hplain.ready hread (hkeys e he) (hwritable e he)
  have htwins : List.Forall₂ Twin (rows.map Row.core) (rows.map Row.core) :=
    List.forall₂_same.2 fun core _ => .same core
  have hindents := h.addedIndents_twins h htwins hsame hdistinct hkeys hvalues hvalues' hready hready
  refine ⟨?_, ?_, ?_⟩
  · exact (h.overwritten_iff hdistinct hkeys hvalues hvalues' hsame hready true).2 hindents
  · exact h.overwritten_iff hdistinct hkeys hvalues hvalues' hsame hready false
  · exact h.kept hdistinct hkeys hvalues hvalues' hsame hready

theorem plainSpace_of_all {t : Text}
    (h : (t.all fun c => !isSkipped c || c == ' ' || c == '\t' || c == '\n') = true) :
    ∀ c ∈ t, isSkipped c = true → c = ' ' ∨ c = '\t' ∨ c = '\n' := by
  intro c hc hskipped
  simpa [hskipped, or_assoc] using List.all_eq_true.1 h c hc

theorem writeAll_twice_line :
    writeAll true (writeAll true "\x7b\n a: [\n 1]\n\x7d".toList [⟨['a'], ['1']⟩, ⟨['b'], ['2']⟩])
        [⟨['a'], ['7']⟩, ⟨['b'], ['8', '0']⟩] = "\x7b\n a: 7,\n b: 80\n\x7d".toList ∧
      writeAll true (writeAll false "\x7b\n a: [\n 1]\n\x7d".toList [⟨['a'], ['1']⟩, ⟨['b'], ['2']⟩])
        [⟨['a'], ['7']⟩, ⟨['b'], ['8', '0']⟩] = "\x7b\n a: 7,\n b: 80\n\x7d".toList := by
  have hobject : arguments? "\x7b\n a: [\n 1]\n\x7d".toList =
      some [.object [⟨some ['a'], ⟨3, 11⟩, .array [.number ⟨9, 10⟩] ⟨6, 11⟩⟩] ⟨0, 13⟩] := by cbv
  have hcommentless : ∀ l ∈ (scan "\x7b\n a: [\n 1]\n\x7d".toList).1,
      l.kind ≠ .trivia .lineComment ∧ l.kind ≠ .trivia .blockComment := by decide +kernel
  have hspace := @plainSpace_of_all "\x7b\n a: [\n 1]\n\x7d".toList (by decide +kernel)
  have hdigits (c : Char) (hc : c.isDigit = true) : IsDigits [c] :=
    ⟨List.cons_ne_nil c [], fun d hd => List.mem_singleton.1 hd ▸ hc⟩
  obtain ⟨htwice, hiff, -⟩ := @writeAll_twice _ _ [⟨['a'], ['1']⟩, ⟨['b'], ['2']⟩] [⟨['a'], ['7']⟩, ⟨['b'], ['8', '0']⟩]
    hobject hcommentless hspace (by decide) rfl (by
      rw [List.forall_mem_cons, List.forall_mem_singleton]
      exact ⟨⟨⟨'a', [], rfl, by decide⟩, List.all_eq_true.1 (by decide)⟩,
        ⟨'b', [], rfl, by decide⟩, List.all_eq_true.1 (by decide)⟩) (by
      rw [List.forall_mem_cons, List.forall_mem_singleton]
      exact ⟨hdigits '1' rfl, hdigits '2' rfl⟩) (by
      rw [List.forall_mem_cons, List.forall_mem_singleton]
      exact ⟨hdigits '7' rfl, by decide, List.all_eq_true.1 (by decide)⟩) (by
      rw [List.forall_mem_cons, List.forall_mem_singleton]
      exact ⟨.inr ⟨_, by rfl, by decide +kernel, by decide +kernel⟩, .inl (by decide +kernel)⟩)
  have hlast : writeAll true "\x7b\n a: [\n 1]\n\x7d".toList [⟨['a'], ['7']⟩, ⟨['b'], ['8', '0']⟩] =
      "\x7b\n a: 7,\n b: 80\n\x7d".toList := by cbv
  exact ⟨htwice.trans hlast, (hiff.2 (by decide +kernel)).trans hlast⟩

/-- A line of a value that is not overwritten gives its indentation to a property that is added. -/
theorem writeAll_twice_indented :
    arguments? "\x7b\n pc: 'a',\n width: [\n1]\n\x7d".toList =
        some [.object [⟨some "pc".toList, ⟨3, 10⟩, .str ['a'] ⟨7, 10⟩⟩,
          ⟨some "width".toList, ⟨13, 24⟩, .array [.number ⟨22, 23⟩] ⟨20, 24⟩⟩] ⟨0, 26⟩] ∧
      (∀ l ∈ (scan "\x7b\n pc: 'a',\n width: [\n1]\n\x7d".toList).1,
        l.kind ≠ .trivia .lineComment ∧ l.kind ≠ .trivia .blockComment) ∧
      (∀ c ∈ "\x7b\n pc: 'a',\n width: [\n1]\n\x7d".toList, isSkipped c = true → c = ' ' ∨ c = '\t' ∨ c = '\n') ∧
      (∀ key ∈ ["width".toList, "height".toList], Writable "\x7b\n pc: 'a',\n width: [\n1]\n\x7d".toList
        [⟨some "pc".toList, ⟨3, 10⟩, .str ['a'] ⟨7, 10⟩⟩,
          ⟨some "width".toList, ⟨13, 24⟩, .array [.number ⟨22, 23⟩] ⟨20, 24⟩⟩] key) ∧
      writeAll true (writeAll false "\x7b\n pc: 'a',\n width: [\n1]\n\x7d".toList
          [⟨"width".toList, "320".toList⟩, ⟨"height".toList, "240".toList⟩])
        [⟨"width".toList, "640".toList⟩, ⟨"height".toList, "480".toList⟩] =
          "\x7b\n pc: 'a',\n width: 640,\nheight: 480\n\x7d".toList ∧
      writeAll true "\x7b\n pc: 'a',\n width: [\n1]\n\x7d".toList
        [⟨"width".toList, "640".toList⟩, ⟨"height".toList, "480".toList⟩] ≠
          "\x7b\n pc: 'a',\n width: 640,\nheight: 480\n\x7d".toList := by
  refine ⟨by cbv, by decide +kernel, plainSpace_of_all (by decide +kernel), ?_, by decide +kernel,
    by decide +kernel⟩
  rw [List.forall_mem_cons, List.forall_mem_singleton]
  exact ⟨.inr ⟨_, by rfl, by decide +kernel, by decide +kernel⟩, .inl (by decide +kernel)⟩

end ObjectText

end PugSize
