import PugSize.Proofs.LineDiff.Blocks

/-!
What the hunks show of the blocks of a script: all changed lines, and of the unchanged lines at least the
first two behind a change and the last two before one. So the lines that are shown make up a sound edit
script between the two lists.
-/

namespace PugSize.LineDiff

section

variable {α : Type}

/-- The lines of a block, a long stretch of unchanged ones cut to its ends. -/
def condensed : Block α → List (HunkLine α)
  | .changed ls => ls
  | .same ls =>
    if ls.length > 2 * contextSize then ls.take contextSize ++ ls.drop (ls.length - contextSize) else ls

theorem mem_condensed {ls : List (HunkLine α)} {l : HunkLine α} (h : l ∈ condensed (.same ls)) : l ∈ ls := by
  rw [condensed] at h
  split at h
  · obtain h | h := List.mem_append.1 h
    · exact List.mem_of_mem_take h
    · exact List.mem_of_mem_drop h
  · exact h

theorem mem_condensed_take {ls : List (HunkLine α)} {l : HunkLine α} (h : l ∈ ls.take contextSize) :
    l ∈ condensed (.same ls) := by
  rw [condensed]
  split
  · exact List.mem_append_left _ h
  · exact List.mem_of_mem_take h

theorem mem_condensed_drop {ls : List (HunkLine α)} {l : HunkLine α}
    (h : l ∈ ls.drop (ls.length - contextSize)) : l ∈ condensed (.same ls) := by
  rw [condensed]
  split
  · exact List.mem_append_right _ h
  · exact List.mem_of_mem_drop h

/-- Whether the last block is short, if it is an unchanged one. -/
def EndsShort (bs : List (Block α)) : Prop :=
  ∀ ls, bs.getLast? = some (.same ls) → ls.length ≤ 2 * contextSize

theorem EndsShort.tail {b : Block α} {bs : List (Block α)} (h : EndsShort (b :: bs)) : EndsShort bs := by
  intro ls hls
  refine h ls ?_
  rw [List.getLast?_cons, hls]
  rfl

/-- The lines of the hunks are those of the blocks, long stretches of unchanged lines cut to their ends. -/
theorem group_lines (hunk bs : List (Block α)) (hne : hunk ++ bs ≠ [])
    (hsame : ∀ ls, hunk ++ bs ≠ [.same ls]) (hlast : EndsShort bs) :
    (group hunk bs).flatMap (fun h => h.flatMap Block.lines) =
      hunk.flatMap Block.lines ++ bs.flatMap condensed := by
  induction bs generalizing hunk with
  | nil =>
      rw [List.append_nil] at hne hsame
      have hgroup : group hunk [] = [hunk] := by
        match hunk with
        | [] => exact absurd rfl hne
        | [.same ls] => exact absurd rfl (hsame ls)
        | [.changed _] => rfl
        | .same _ :: _ :: _ => rfl
        | .changed _ :: _ :: _ => rfl
      rw [hgroup]
      simp
  | cons b bs ih =>
      cases b with
      | same ls =>
          rw [group]
          split
          · rename_i hlong
            have hmore : bs ≠ [] := by
              rintro rfl
              have := hlast ls rfl
              omega
            have hrest := ih [.same (ls.drop (ls.length - contextSize))] (by simp)
              (fun ls' heq => hmore (List.cons.inj heq).2) hlast.tail
            have hcut : condensed (.same ls) = ls.take contextSize ++ ls.drop (ls.length - contextSize) :=
              if_pos hlong
            rw [List.flatMap_cons, hrest]
            simp [Block.lines, hcut]
          · rename_i hshort
            have hrest := ih (hunk ++ [.same ls]) (by simp) (by simpa using hsame) hlast.tail
            have hwhole : condensed (.same ls) = ls := if_neg hshort
            rw [hrest]
            simp [Block.lines, hwhole]
      | changed ls =>
          have hrest := ih (hunk ++ [.changed ls]) (by simp) (by simpa using hsame) hlast.tail
          rw [group, hrest]
          · simp [Block.lines, condensed]
          · exact nofun

theorem trimFirst_append {pre : List (Block α)} (h : pre ≠ []) (post : List (Block α)) :
    trimFirst (pre ++ post) = trimFirst pre ++ post := by
  match pre with
  | [] => exact absurd rfl h
  | .same _ :: _ => rfl
  | .changed _ :: _ => rfl

theorem trimLast_append (pre : List (Block α)) {post : List (Block α)} (h : post ≠ []) :
    trimLast (pre ++ post) = pre ++ trimLast post := by
  induction pre with
  | nil => rfl
  | cons b pre ih =>
      have hne : pre ++ post ≠ [] := fun heq => h (List.append_eq_nil_iff.1 heq).2
      rw [List.cons_append, trimLast, ih]
      · rfl
      · exact fun ls _ heq => hne heq

theorem trimLast_cases (bs : List (Block α)) :
    bs = [] ∨ ∃ pre b, bs = pre ++ [b] ∧ trimLast bs = pre ++ trimLast [b] := by
  obtain rfl | ⟨pre, b, rfl⟩ := List.eq_nil_or_concat bs
  · exact .inl rfl
  · rw [List.concat_eq_append]
    exact .inr ⟨pre, b, rfl, trimLast_append pre (List.cons_ne_nil b [])⟩

theorem endsShort_trimLast (bs : List (Block α)) : EndsShort (trimLast bs) := by
  intro ls hls
  obtain rfl | ⟨pre, b, -, heq⟩ := trimLast_cases bs
  · cases hls
  · rw [heq] at hls
    cases b with
    | same ls' =>
        rw [trimLast, List.getLast?_concat, Option.some.injEq, Block.same.injEq] at hls
        rw [← hls, List.length_take]
        have : contextSize ≤ 2 * contextSize := by decide
        omega
    | changed ls' => simp [trimLast] at hls

/-- Lines shown of a list of blocks: all of the changed ones, and some of the unchanged ones. -/
structure Excerpt (bs : List (Block α)) (shown : List (HunkLine α)) : Prop where
  mem : ∀ l ∈ shown, l ∈ keptLines bs ∨ l ∈ changedLines bs
  numbers : ∀ change, change ≠ .keep → numbers change shown = numbers change (changedLines bs)

theorem excerpt_condensed {bs : List (Block α)} (h : ∀ l ∈ keptLines bs, l.change = .keep) :
    Excerpt bs (bs.flatMap condensed) := by
  induction bs with
  | nil => exact ⟨nofun, fun _ _ => rfl⟩
  | cons b bs ih =>
      cases b with
      | same ls =>
          have hrest := ih fun l hl => h l (List.mem_append_right _ hl)
          constructor
          · intro l hl
            rw [List.flatMap_cons] at hl
            obtain hl | hl := List.mem_append.1 hl
            · exact .inl (List.mem_append_left _ (mem_condensed hl))
            · exact (hrest.mem l hl).imp_left (List.mem_append_right _)
          · intro change hchange
            have hnone : numbers change (condensed (.same ls)) = [] := by
              rw [numbers, List.map_eq_nil_iff, List.filter_eq_nil_iff]
              intro l hl
              rw [h l (List.mem_append_left _ (mem_condensed hl)), decide_eq_true_iff]
              exact Ne.symm hchange
            rw [List.flatMap_cons, numbers_append, hnone, List.nil_append, hrest.numbers change hchange]
            rfl
      | changed ls =>
          have hrest := ih h
          constructor
          · intro l hl
            rw [List.flatMap_cons] at hl
            obtain hl | hl := List.mem_append.1 hl
            · exact .inr (List.mem_append_left _ hl)
            · exact (hrest.mem l hl).imp_right (List.mem_append_right _)
          · intro change hchange
            rw [List.flatMap_cons, numbers_append, hrest.numbers change hchange, ← numbers_append]
            rfl

/-- Fewer unchanged lines make no other excerpt. -/
theorem Excerpt.of_trimmed {bs bs' : List (Block α)} {shown : List (HunkLine α)} (h : Excerpt bs' shown)
    (hkept : ∀ l ∈ keptLines bs', l ∈ keptLines bs) (hchanged : changedLines bs' = changedLines bs) :
    Excerpt bs shown :=
  ⟨fun l hl => (h.mem l hl).imp (hkept l) fun hmem => hchanged ▸ hmem,
    fun change hchange => by rw [h.numbers change hchange, hchanged]⟩

theorem changedLines_trimFirst (bs : List (Block α)) : changedLines (trimFirst bs) = changedLines bs := by
  match bs with
  | [] => rfl
  | .same _ :: _ => rfl
  | .changed _ :: _ => rfl

theorem mem_keptLines_trimFirst {bs : List (Block α)} {l : HunkLine α} (h : l ∈ keptLines (trimFirst bs)) :
    l ∈ keptLines bs := by
  match bs with
  | [] => exact h
  | .same ls :: bs =>
      refine List.mem_append.2 ((List.mem_append.1 h).imp_left ?_)
      exact List.mem_of_mem_drop
  | .changed _ :: _ => exact h

theorem changedLines_trimLast (bs : List (Block α)) : changedLines (trimLast bs) = changedLines bs := by
  obtain rfl | ⟨pre, b, rfl, heq⟩ := trimLast_cases bs
  · rfl
  · rw [heq, changedLines_append, changedLines_append]
    cases b <;> rfl

theorem mem_keptLines_trimLast {bs : List (Block α)} {l : HunkLine α} (h : l ∈ keptLines (trimLast bs)) :
    l ∈ keptLines bs := by
  obtain rfl | ⟨pre, b, rfl, heq⟩ := trimLast_cases bs
  · exact h
  · rw [heq, keptLines_append] at h
    rw [keptLines_append]
    refine List.mem_append.2 ((List.mem_append.1 h).imp_right fun hl => ?_)
    cases b with
    | same ls =>
        rw [trimLast, keptLines, keptLines, List.append_nil] at hl
        rw [keptLines, keptLines, List.append_nil]
        exact List.mem_of_mem_take hl
    | changed ls => exact hl

/-- The lines shown of blocks. -/
def shownLines (bs : List (Block α)) : List (HunkLine α) := (trimLast (trimFirst bs)).flatMap condensed

theorem excerpt_shownLines {bs : List (Block α)} (h : ∀ l ∈ keptLines bs, l.change = .keep) :
    Excerpt bs (shownLines bs) := by
  have hkept : ∀ l ∈ keptLines (trimLast (trimFirst bs)), l ∈ keptLines bs :=
    fun l hl => mem_keptLines_trimFirst (mem_keptLines_trimLast hl)
  refine (excerpt_condensed fun l hl => h l (hkept l hl)).of_trimmed hkept ?_
  rw [changedLines_trimLast, changedLines_trimFirst]

/-- The first unchanged lines behind another block are shown. -/
theorem mem_shownLines_take {pre post : List (Block α)} {ls : List (HunkLine α)} {l : HunkLine α}
    (hpre : pre ≠ []) (h : l ∈ ls.take contextSize) : l ∈ shownLines (pre ++ .same ls :: post) := by
  rw [shownLines, trimFirst_append hpre]
  refine List.mem_flatMap.2 ?_
  by_cases hpost : post = []
  · rw [hpost, trimLast_append _ (List.cons_ne_nil _ _)]
    refine ⟨.same (ls.take contextSize), by simp [trimLast], mem_condensed_take ?_⟩
    rwa [List.take_take, Nat.min_self]
  · rw [List.append_cons, trimLast_append _ hpost]
    exact ⟨.same ls, by simp, mem_condensed_take h⟩

/-- The last unchanged lines before another block are shown. -/
theorem mem_shownLines_drop {pre post : List (Block α)} {ls : List (HunkLine α)} {l : HunkLine α}
    (hpost : post ≠ []) (h : l ∈ ls.drop (ls.length - contextSize)) :
    l ∈ shownLines (pre ++ .same ls :: post) := by
  rw [shownLines]
  refine List.mem_flatMap.2 ?_
  by_cases hpre : pre = []
  · rw [hpre, List.nil_append, trimFirst, ← List.singleton_append, trimLast_append _ hpost]
    refine ⟨.same (ls.drop (ls.length - contextSize)), by simp, mem_condensed_drop ?_⟩
    have hshort : (ls.drop (ls.length - contextSize)).length - contextSize = 0 := by
      rw [List.length_drop]
      omega
    rwa [hshort, List.drop_zero]
  · rw [trimFirst_append hpre, List.append_cons, trimLast_append _ hpost]
    exact ⟨.same ls, by simp, mem_condensed_drop h⟩

/-- The unchanged lines within two of a changed block are shown. -/
theorem mem_shownLines_near {bs pre post pre' post' : List (Block α)} {ls ls' : List (HunkLine α)}
    {l : HunkLine α} {place : Nat} (hsame : bs = pre ++ .same ls :: post)
    (hchanged : bs = pre' ++ .changed ls' :: post') (hl : ls[place]? = some l)
    (hbefore : (keptLines pre').length ≤ (keptLines pre).length + place + contextSize)
    (hbehind : (keptLines pre).length + place < (keptLines pre').length + contextSize) :
    l ∈ shownLines bs := by
  have hplace := (List.getElem?_eq_some_iff.1 hl).1
  rw [hsame]
  rw [hsame] at hchanged
  obtain ⟨between, rfl, hcut⟩ | ⟨between, rfl, hcut⟩ := List.append_eq_append_iff.1 hchanged
  · cases between with
    | nil => cases hcut
    | cons b between =>
        obtain ⟨rfl, rfl⟩ := List.cons.inj hcut
        refine mem_shownLines_drop (by simp) ?_
        rw [keptLines_append, keptLines, List.length_append, List.length_append] at hbefore
        have hat : (ls.drop (ls.length - contextSize))[place - (ls.length - contextSize)]? = some l := by
          rw [List.getElem?_drop, Nat.add_sub_cancel' (by omega), hl]
        exact List.mem_of_getElem? hat
  · cases between with
    | nil => cases hcut
    | cons b between =>
        obtain ⟨rfl, rfl⟩ := List.cons.inj hcut
        refine mem_shownLines_take (by simp) ?_
        rw [keptLines_append, List.length_append] at hbehind
        have hat : (ls.take contextSize)[place]? = some l := by
          rw [List.getElem?_take_of_lt (by omega), hl]
        exact List.mem_of_getElem? hat

/-- Lines that tell what becomes of one list in the other: each with its index, the lines at the indices
of removals and additions taken out of the two lists leave the same list, the other lines stand at the same
place of both rests, and no line within two of a change is left out. -/
structure SoundScript (old new : List α) (shown : List (HunkLine α)) : Prop where
  removed : ∀ l ∈ shown, l.change = .remove → old[l.index]? = some l.line
  added : ∀ l ∈ shown, l.change = .add → new[l.index]? = some l.line
  removed_increasing : (numbers .remove shown).Pairwise (· < ·)
  added_increasing : (numbers .add shown).Pairwise (· < ·)
  rest : (unchanged 0 (numbers .remove shown) old).map Prod.fst =
    (unchanged 0 (numbers .add shown) new).map Prod.fst
  kept : ∀ l ∈ shown, l.change = .keep → ∃ k i : Nat, (unchanged 0 (numbers .add shown) new)[k]? =
    some (l.line, l.index) ∧ (unchanged 0 (numbers .remove shown) old)[k]? = some (l.line, i)
  context : ∀ (k : Nat) (line : α) (i : Nat), (unchanged 0 (numbers .add shown) new)[k]? = some (line, i) →
    ∀ n, ((∃ r ∈ numbers .remove shown, n = unchangedBefore (numbers .remove shown) old r) ∨
        ∃ a ∈ numbers .add shown, n = unchangedBefore (numbers .add shown) new a) →
      n ≤ k + 2 → k < n + 2 → ⟨.keep, i, line⟩ ∈ shown

theorem soundScript_shownLines {bs : List (Block α)} {old new : List α} (h : Tiles 0 0 bs old new) :
    SoundScript old new (shownLines bs) := by
  have hexcerpt := excerpt_shownLines h.keptLines_change
  have hremoves := hexcerpt.numbers .remove (by decide)
  have hadds := hexcerpt.numbers .add (by decide)
  have hchanged {l : HunkLine α} (hl : l ∈ shownLines bs) (hne : l.change ≠ .keep) :
      l ∈ changedLines bs :=
    (hexcerpt.mem l hl).resolve_left fun hkept => hne (h.keptLines_change l hkept)
  refine ⟨fun l hl hchange => ?_, fun l hl hchange => ?_, ?_, ?_, ?_, fun l hl hchange => ?_, ?_⟩
  · exact (h.old.getElem? (hchanged hl (by rw [hchange]; decide)) hchange).2
  · exact (h.new.getElem? (hchanged hl (by rw [hchange]; decide)) hchange).2
  · rw [hremoves]
    exact h.old.pairwise_numbers
  · rw [hadds]
    exact h.new.pairwise_numbers
  · rw [hremoves, hadds, h.old.unchanged_line, h.new.unchanged_line]
  · have hkept : l ∈ keptLines bs :=
      (hexcerpt.mem l hl).resolve_right fun hmem => h.changedLines_change l hmem hchange
    obtain ⟨k, hk⟩ := List.mem_iff_getElem?.1 hkept
    have hold := congrArg (fun as => as[k]?) h.old.unchanged_line
    simp only [List.getElem?_map, hk, Option.map_some] at hold
    obtain ⟨⟨line, i⟩, hi, rfl⟩ := Option.map_eq_some_iff.1 hold
    refine ⟨k, i, ?_, ?_⟩
    · rw [hadds, h.unchanged_new, List.getElem?_map, hk, Option.map_some]
    · rw [hremoves, hi]
  · rw [hremoves, hadds, h.unchanged_new]
    intro k line i hk n hn hbefore hbehind
    rw [List.getElem?_map] at hk
    obtain ⟨l, hl, heq⟩ := Option.map_eq_some_iff.1 hk
    obtain ⟨rfl, rfl⟩ := Prod.mk.inj heq
    have hline : (⟨.keep, l.index, l.line⟩ : HunkLine α) = l := by
      rw [← h.keptLines_change l (List.mem_of_getElem? hl)]
    obtain ⟨pre, ls, post, place, hbs, rfl, hplace⟩ := keptLines_getElem? hl
    have hchange : ∃ pre' ls' post', bs = pre' ++ .changed ls' :: post' ∧ n = (keptLines pre').length := by
      obtain ⟨r, hr, rfl⟩ | ⟨a, ha, rfl⟩ := hn
      · exact h.old.exists_block hr
      · exact h.new.exists_block ha
    obtain ⟨pre', ls', post', hbs', rfl⟩ := hchange
    rw [hline]
    exact mem_shownLines_near hbs hbs' hplace hbefore hbehind

/-- Different lists have a changed block. -/
theorem Tiles.changedLines_ne_nil {bs : List (Block α)} {old new : List α} (h : Tiles 0 0 bs old new)
    (hne : old ≠ new) : changedLines bs ≠ [] := by
  intro hnone
  have hold := h.old.unchanged_line
  have hnew := h.new.unchanged_line
  rw [hnone] at hold hnew
  exact hne ((unchanged_nil old).symm.trans (hold.trans (hnew.symm.trans (unchanged_nil new))))

/-- Grouped into hunks, the lines shown stay the same. -/
theorem group_shownLines {bs : List (Block α)} (h : changedLines bs ≠ []) :
    (group [] (trimLast (trimFirst bs))).flatMap (fun hunk => hunk.flatMap Block.lines) = shownLines bs := by
  rw [← changedLines_trimFirst, ← changedLines_trimLast] at h
  refine group_lines [] _ ?_ ?_ (endsShort_trimLast _)
  · intro hnil
    rw [List.nil_append] at hnil
    rw [hnil] at h
    exact h rfl
  · intro ls hsame
    rw [List.nil_append] at hsame
    rw [hsame] at h
    exact h rfl

variable [BEq α] [LawfulBEq α]

theorem tiles_hunks (old new : List α) :
    Tiles 0 0 (blocks 0 0 Pending.none (joinKept (compact (search old new)))) old new := by
  have htiles := tiles_blocks (joinKept (compact (search old new))) Pending.none 0 0
  have hsides := between_compact old new
  have hold : Pending.none.removed ++ oldSide (joinKept (compact (search old new))) = old := hsides.old
  have hnew : Pending.none.added ++ newSide (joinKept (compact (search old new))) = new := hsides.new
  rwa [hold, hnew] at htiles

/-- The lines of the hunks of two different lists tell what becomes of one in the other. -/
theorem soundScript_hunks {old new : List α} (h : old ≠ new) : SoundScript old new (hunks old new).flatten := by
  have htiles := tiles_hunks old new
  have hlines := group_shownLines (htiles.changedLines_ne_nil h)
  rw [List.flatMap_def] at hlines
  rw [hunks, hlines]
  exact soundScript_shownLines htiles

end

end PugSize.LineDiff
