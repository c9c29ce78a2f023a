import Mathlib.Data.List.Basic
import PugSize.Proofs.LineDiff.Script

/-!
The blocks of a script and the two lists they are blocks of. Each list is laid out in the blocks in order:
all of it but the members of one kind of change stands in the unchanged blocks, and the numbers of these
members are the places at which they stand.
-/

namespace PugSize.LineDiff

variable {α : Type}

/-- The indices of the lines of one kind. -/
def numbers (change : Change) (shown : List (HunkLine α)) : List Nat :=
  (shown.filter fun l => l.change = change).map HunkLine.index

/-- The members of a list, each with its index from a given one on, but for those at the given indices. -/
def unchanged (start : Nat) (is : List Nat) (as : List α) : List (α × Nat) :=
  (as.zipIdx start).filter fun x => x.2 ∉ is

/-- How many unchanged members stand before an index. -/
def unchangedBefore (is : List Nat) (as : List α) (i : Nat) : Nat := (unchanged 0 is (as.take i)).length

/-- The lines of the unchanged blocks. -/
def keptLines : List (Block α) → List (HunkLine α)
  | [] => []
  | .same ls :: bs => ls ++ keptLines bs
  | .changed _ :: bs => keptLines bs

/-- The lines of the changed blocks. -/
def changedLines : List (Block α) → List (HunkLine α)
  | [] => []
  | .same _ :: bs => changedLines bs
  | .changed ls :: bs => ls ++ changedLines bs

theorem number_eq (change : Change) (i : Nat) (as : List α) :
    number change i as = (as.zipIdx i).map fun x => ⟨change, x.2, x.1⟩ := by
  induction as generalizing i with
  | nil => rfl
  | cons a as ih => rw [number, ih, List.zipIdx_cons, List.map_cons]

@[simp] theorem length_number (change : Change) (i : Nat) (as : List α) :
    (number change i as).length = as.length := by
  rw [number_eq, List.length_map, List.length_zipIdx]

@[simp] theorem number_line (change : Change) (i : Nat) (as : List α) :
    (number change i as).map HunkLine.line = as := by
  rw [number_eq, List.map_map]
  exact List.zipIdx_map_fst i as

@[simp] theorem number_index (change : Change) (i : Nat) (as : List α) :
    (number change i as).map HunkLine.index = List.range' i as.length := by
  rw [number_eq, List.map_map]
  exact List.zipIdx_map_snd i as

theorem mem_number {change : Change} {i : Nat} {as : List α} {l : HunkLine α}
    (h : l ∈ number change i as) : l.change = change ∧ i ≤ l.index ∧ as[l.index - i]? = some l.line := by
  rw [number_eq] at h
  obtain ⟨⟨a, k⟩, hmem, rfl⟩ := List.mem_map.1 h
  exact ⟨rfl, List.mk_mem_zipIdx_iff_le_and_getElem?_sub.1 hmem⟩

theorem filter_number (change change' : Change) (i : Nat) (as : List α) :
    (number change i as).filter (fun l => l.change = change') =
      if change = change' then number change i as else [] := by
  split
  · rename_i heq
    rw [List.filter_eq_self]
    intro l hl
    rw [(mem_number hl).1, decide_eq_true heq]
  · rename_i hne
    rw [List.filter_eq_nil_iff]
    intro l hl
    rw [(mem_number hl).1, decide_eq_true_iff]
    exact hne

theorem numbers_append (change : Change) (as bs : List (HunkLine α)) :
    numbers change (as ++ bs) = numbers change as ++ numbers change bs := by
  rw [numbers, List.filter_append, List.map_append, numbers, numbers]

theorem mem_numbers {change : Change} {shown : List (HunkLine α)} {i : Nat} :
    i ∈ numbers change shown ↔ ∃ l ∈ shown, l.change = change ∧ l.index = i := by
  simp only [numbers, List.mem_map, List.mem_filter, decide_eq_true_eq, and_assoc]

theorem keptLines_append (bs cs : List (Block α)) :
    keptLines (bs ++ cs) = keptLines bs ++ keptLines cs := by
  induction bs with
  | nil => rfl
  | cons b bs ih => cases b <;> simp [keptLines, ih]

theorem changedLines_append (bs cs : List (Block α)) :
    changedLines (bs ++ cs) = changedLines bs ++ changedLines cs := by
  induction bs with
  | nil => rfl
  | cons b bs ih => cases b <;> simp [changedLines, ih]

/-- An unchanged line is one of an unchanged block, behind those of the blocks before it. -/
theorem keptLines_getElem? {bs : List (Block α)} {k : Nat} {l : HunkLine α}
    (h : (keptLines bs)[k]? = some l) :
    ∃ pre ls post n, bs = pre ++ .same ls :: post ∧ k = (keptLines pre).length + n ∧
      ls[n]? = some l := by
  induction bs generalizing k with
  | nil => cases h
  | cons b bs ih =>
      cases b with
      | same ls =>
          rw [keptLines] at h
          by_cases hk : k < ls.length
          · rw [List.getElem?_append_left hk] at h
            exact ⟨[], ls, bs, k, rfl, (Nat.zero_add k).symm, h⟩
          · rw [List.getElem?_append_right (Nat.le_of_not_lt hk)] at h
            obtain ⟨pre, ls', post, n, rfl, hn, hl⟩ := ih h
            refine ⟨.same ls :: pre, ls', post, n, rfl, ?_, hl⟩
            rw [keptLines, List.length_append]
            omega
      | changed ls =>
          obtain ⟨pre, ls', post, n, rfl, hn, hl⟩ := ih h
          exact ⟨.changed ls :: pre, ls', post, n, rfl, hn, hl⟩

theorem mem_changedLines {bs : List (Block α)} {l : HunkLine α} (h : l ∈ changedLines bs) :
    ∃ pre ls post, bs = pre ++ .changed ls :: post ∧ l ∈ ls := by
  induction bs with
  | nil => cases h
  | cons b bs ih =>
      cases b with
      | same ls =>
          obtain ⟨pre, ls', post, rfl, hl⟩ := ih h
          exact ⟨.same ls :: pre, ls', post, rfl, hl⟩
      | changed ls =>
          obtain hl | hl := List.mem_append.1 h
          · exact ⟨[], ls, bs, rfl, hl⟩
          · obtain ⟨pre, ls', post, rfl, hl'⟩ := ih hl
            exact ⟨.changed ls :: pre, ls', post, rfl, hl'⟩

section

variable {start : Nat} {is js : List Nat} {as bs : List α}

theorem unchanged_append : unchanged start is (as ++ bs) =
    unchanged start is as ++ unchanged (start + as.length) is bs := by
  rw [unchanged, List.zipIdx_append, List.filter_append, unchanged, unchanged]

/-- Only the indices of the list itself matter. -/
theorem unchanged_congr (h : ∀ i, start ≤ i → i < start + as.length → (i ∈ is ↔ i ∈ js)) :
    unchanged start is as = unchanged start js as := by
  apply List.filter_congr
  intro x hx
  have hi := h x.2 (List.le_snd_of_mem_zipIdx hx) (List.snd_lt_add_of_mem_zipIdx hx)
  simp only [hi]

theorem unchanged_of_not_mem (h : ∀ i ∈ is, i < start ∨ start + as.length ≤ i) :
    unchanged start is as = as.zipIdx start := by
  rw [unchanged, List.filter_eq_self]
  intro x hx
  rw [decide_eq_true_iff]
  intro hmem
  have := List.le_snd_of_mem_zipIdx hx
  have := List.snd_lt_add_of_mem_zipIdx hx
  have := h x.2 hmem
  omega

theorem unchanged_nil (as : List α) : (unchanged 0 [] as).map Prod.fst = as := by
  rw [unchanged_of_not_mem fun _ hi => absurd hi List.not_mem_nil, List.zipIdx_map_fst]

theorem unchanged_of_mem (h : ∀ i, start ≤ i → i < start + as.length → i ∈ is) :
    unchanged start is as = [] := by
  rw [unchanged, List.filter_eq_nil_iff]
  intro x hx
  rw [decide_eq_true_iff, not_not]
  exact h x.2 (List.le_snd_of_mem_zipIdx hx) (List.snd_lt_add_of_mem_zipIdx hx)

end

/-- A list laid out in blocks from an index on, where the members at changes are those of one kind. -/
inductive Side (change : Change) : Nat → List (Block α) → List α → Prop
  | nil (i : Nat) : Side change i [] []
  | same {i : Nat} {ls : List (HunkLine α)} {bs : List (Block α)} {as : List α}
      (kept : ∀ l ∈ ls, l.change = .keep) (rest : Side change (i + ls.length) bs as) :
      Side change i (.same ls :: bs) (ls.map HunkLine.line ++ as)
  | changed {i : Nat} {ls : List (HunkLine α)} {bs : List (Block α)} {members as : List α}
      (placed : ls.filter (fun l => l.change = change) = number change i members)
      (rest : Side change (i + members.length) bs as) :
      Side change i (.changed ls :: bs) (members ++ as)

namespace Side

variable {change : Change} {i : Nat} {bs : List (Block α)} {as : List α}

theorem split {pre post : List (Block α)} (h : Side change i (pre ++ post) as) :
    ∃ front back, as = front ++ back ∧ Side change i pre front ∧
      Side change (i + front.length) post back := by
  induction pre generalizing i as with
  | nil => exact ⟨[], as, rfl, .nil i, h⟩
  | cons b pre ih =>
      cases h with
      | @same _ ls _ _ kept rest =>
          obtain ⟨front, back, rfl, hfront, hback⟩ := ih rest
          refine ⟨ls.map HunkLine.line ++ front, back, (List.append_assoc _ _ _).symm, .same kept hfront, ?_⟩
          rwa [List.length_append, List.length_map, ← Nat.add_assoc]
      | @changed _ ls _ members _ placed rest =>
          obtain ⟨front, back, rfl, hfront, hback⟩ := ih rest
          refine ⟨members ++ front, back, (List.append_assoc _ _ _).symm, .changed placed hfront, ?_⟩
          rwa [List.length_append, ← Nat.add_assoc]

/-- The members at changes stand in the list at their indices. -/
theorem getElem? (h : Side change i bs as) {l : HunkLine α} (hl : l ∈ changedLines bs)
    (hchange : l.change = change) : i ≤ l.index ∧ as[l.index - i]? = some l.line := by
  induction h with
  | nil => cases hl
  | @same i ls bs as _ _ ih =>
      obtain ⟨hle, hget⟩ := ih hl
      refine ⟨by omega, ?_⟩
      rw [List.getElem?_append_right (by rw [List.length_map]; omega), List.length_map, Nat.sub_sub]
      exact hget
  | @changed i ls bs members as placed _ ih =>
      obtain hl | hl := List.mem_append.1 hl
      · have hplaced : l ∈ ls.filter fun l => l.change = change :=
          List.mem_filter.2 ⟨hl, decide_eq_true hchange⟩
        rw [placed] at hplaced
        obtain ⟨-, hle, hget⟩ := mem_number hplaced
        refine ⟨hle, ?_⟩
        rw [List.getElem?_append_left (List.getElem?_eq_some_iff.1 hget).1, hget]
      · obtain ⟨hle, hget⟩ := ih hl
        refine ⟨by omega, ?_⟩
        rw [List.getElem?_append_right (by omega), Nat.sub_sub]
        exact hget

theorem mem_bounds (h : Side change i bs as) {x : Nat} (hx : x ∈ numbers change (changedLines bs)) :
    i ≤ x ∧ x < i + as.length := by
  obtain ⟨l, hl, hchange, rfl⟩ := mem_numbers.1 hx
  obtain ⟨hle, hget⟩ := h.getElem? hl hchange
  have := (List.getElem?_eq_some_iff.1 hget).1
  omega

theorem numbers_changed {ls : List (HunkLine α)} {members : List α}
    (placed : ls.filter (fun l => l.change = change) = number change i members) :
    numbers change ls = List.range' i members.length := by
  rw [numbers, placed, number_index]

theorem pairwise_numbers (h : Side change i bs as) :
    (numbers change (changedLines bs)).Pairwise (· < ·) := by
  induction h with
  | nil => exact .nil
  | same _ _ ih => exact ih
  | @changed i ls bs members as placed rest ih =>
      rw [changedLines, numbers_append, numbers_changed placed, List.pairwise_append]
      refine ⟨List.pairwise_lt_range' 1, ih, fun x hx y hy => ?_⟩
      have := (List.mem_range'_1.1 hx).2
      have := (rest.mem_bounds hy).1
      omega

theorem unchanged_same {members : List α} (h : Side change (i + members.length) bs as) :
    unchanged i (numbers change (changedLines bs)) (members ++ as) =
      members.zipIdx i ++ unchanged (i + members.length) (numbers change (changedLines bs)) as := by
  rw [unchanged_append, unchanged_of_not_mem fun x hx => .inr (h.mem_bounds hx).1]

theorem unchanged_changed {ls : List (HunkLine α)} {members : List α}
    (placed : ls.filter (fun l => l.change = change) = number change i members) :
    unchanged i (numbers change (changedLines (.changed ls :: bs))) (members ++ as) =
      unchanged (i + members.length) (numbers change (changedLines bs)) as := by
  have hall : numbers change (changedLines (.changed ls :: bs)) =
      List.range' i members.length ++ numbers change (changedLines bs) := by
    rw [changedLines, numbers_append, numbers_changed placed]
  have hfirst : unchanged i (numbers change (changedLines (.changed ls :: bs))) members = [] := by
    refine unchanged_of_mem fun x hle hlt => ?_
    rw [hall]
    exact List.mem_append_left _ (List.mem_range'_1.2 ⟨hle, hlt⟩)
  rw [unchanged_append, hfirst, List.nil_append]
  refine unchanged_congr fun x hle _ => ?_
  rw [hall, List.mem_append]
  refine or_iff_right fun hx => ?_
  have := (List.mem_range'_1.1 hx).2
  omega

/-- Without the members at changes, the list is what stands in the unchanged blocks. -/
theorem unchanged_line (h : Side change i bs as) :
    (unchanged i (numbers change (changedLines bs)) as).map Prod.fst =
      (keptLines bs).map HunkLine.line := by
  induction h with
  | nil => rfl
  | @same i ls bs as _ rest ih =>
      rw [← List.length_map HunkLine.line] at rest ih
      rw [changedLines, rest.unchanged_same, List.map_append, List.zipIdx_map_fst, ih, keptLines,
        List.map_append]
  | changed placed rest ih => rw [unchanged_changed placed, ih, keptLines]

/-- The unchanged members before one at a change are those of the blocks before it. -/
theorem unchangedBefore_eq {pre post : List (Block α)} {ls : List (HunkLine α)}
    (h : Side change 0 (pre ++ .changed ls :: post) as) {l : HunkLine α} (hl : l ∈ ls)
    (hchange : l.change = change) :
    unchangedBefore (numbers change (changedLines (pre ++ .changed ls :: post))) as l.index =
      (keptLines pre).length := by
  obtain ⟨front, back, rfl, hfront, hback⟩ := h.split
  rw [Nat.zero_add] at hback
  cases hback with
  | @changed _ _ _ members back placed rest =>
      have hplaced : l ∈ ls.filter fun l => l.change = change :=
        List.mem_filter.2 ⟨hl, decide_eq_true hchange⟩
      rw [placed] at hplaced
      obtain ⟨-, hle, hget⟩ := mem_number hplaced
      have hlt := (List.getElem?_eq_some_iff.1 hget).1
      obtain ⟨n, hn⟩ := Nat.exists_eq_add_of_le hle
      have htake : (front ++ (members ++ back)).take l.index = front ++ members.take n := by
        rw [hn, List.take_length_add_append, List.take_append_of_le_length (by omega)]
      have hall : numbers change (changedLines (pre ++ .changed ls :: post)) =
          numbers change (changedLines pre) ++
            (List.range' front.length members.length ++ numbers change (changedLines post)) := by
        rw [changedLines_append, numbers_append, changedLines, numbers_append, numbers_changed placed]
      have hfirst : unchanged 0 (numbers change (changedLines (pre ++ .changed ls :: post))) front =
          unchanged 0 (numbers change (changedLines pre)) front := by
        refine unchanged_congr fun x _ hx => ?_
        rw [hall, List.mem_append]
        refine or_iff_left fun hmem => ?_
        obtain hmem | hmem := List.mem_append.1 hmem
        · have := (List.mem_range'_1.1 hmem).1
          omega
        · have := (rest.mem_bounds hmem).1
          omega
      have hsecond : unchanged (0 + front.length)
          (numbers change (changedLines (pre ++ .changed ls :: post))) (members.take n) = [] := by
        refine unchanged_of_mem fun x hle' hlt' => ?_
        rw [hall]
        rw [List.length_take] at hlt'
        refine List.mem_append_right _ (List.mem_append_left _ (List.mem_range'_1.2 ?_))
        omega
      have hlength := congrArg List.length hfront.unchanged_line
      rw [List.length_map, List.length_map] at hlength
      rw [unchangedBefore, htake, unchanged_append, hfirst, hsecond, List.append_nil, hlength]

/-- A change stands in a block, behind as many unchanged members as there are in the blocks before it. -/
theorem exists_block (h : Side change 0 bs as) {x : Nat} (hx : x ∈ numbers change (changedLines bs)) :
    ∃ pre ls post, bs = pre ++ .changed ls :: post ∧
      unchangedBefore (numbers change (changedLines bs)) as x = (keptLines pre).length := by
  obtain ⟨l, hl, hchange, rfl⟩ := mem_numbers.1 hx
  obtain ⟨pre, ls, post, rfl, hl'⟩ := mem_changedLines hl
  exact ⟨pre, ls, post, rfl, h.unchangedBefore_eq hl' hchange⟩

end Side

/-- The blocks of a script from indices of the old and the new list on. -/
inductive Tiles : Nat → Nat → List (Block α) → List α → List α → Prop
  | nil (o n : Nat) : Tiles o n [] [] []
  | same {o n : Nat} {bs : List (Block α)} {olds news : List α} (members : List α)
      (rest : Tiles (o + members.length) (n + members.length) bs olds news) :
      Tiles o n (.same (number .keep n members) :: bs) (members ++ olds) (members ++ news)
  | changed {o n : Nat} {bs : List (Block α)} {olds news : List α} (removed added : List α)
      (rest : Tiles (o + removed.length) (n + added.length) bs olds news) :
      Tiles o n (.changed (number .remove o removed ++ number .add n added) :: bs) (removed ++ olds)
        (added ++ news)

namespace Tiles

variable {o n : Nat} {bs : List (Block α)} {olds news : List α}

theorem old (h : Tiles o n bs olds news) : Side .remove o bs olds := by
  induction h with
  | nil o n => exact .nil o
  | @same o n bs olds news members _ ih =>
      have hside := @Side.same α .remove o (number .keep n members) bs olds (fun l hl => (mem_number hl).1)
        (by rwa [length_number])
      rwa [number_line] at hside
  | changed removed added _ ih =>
      refine .changed ?_ ih
      simp [filter_number]

theorem new (h : Tiles o n bs olds news) : Side .add n bs news := by
  induction h with
  | nil o n => exact .nil n
  | @same o n bs olds news members _ ih =>
      have hside := @Side.same α .add n (number .keep n members) bs news (fun l hl => (mem_number hl).1)
        (by rwa [length_number])
      rwa [number_line] at hside
  | changed removed added _ ih =>
      refine .changed ?_ ih
      simp [filter_number]

/-- The unchanged lines are numbered as in the new list. -/
theorem unchanged_new (h : Tiles o n bs olds news) :
    unchanged n (numbers .add (changedLines bs)) news = (keptLines bs).map fun l => (l.line, l.index) := by
  induction h with
  | nil => rfl
  | @same o n bs olds news members rest ih =>
      have hmembers : (number .keep n members).map (fun l => (l.line, l.index)) = members.zipIdx n := by
        rw [number_eq, List.map_map]
        exact List.map_id _
      rw [changedLines, rest.new.unchanged_same, ih, keptLines, List.map_append, hmembers]
  | changed removed added rest ih =>
      rw [Side.unchanged_changed (by simp [filter_number]), ih, keptLines]

theorem keptLines_change (h : Tiles o n bs olds news) : ∀ l ∈ keptLines bs, l.change = .keep := by
  induction h with
  | nil => exact nofun
  | same members _ ih =>
      intro l hl
      obtain hl | hl := List.mem_append.1 hl
      · exact (mem_number hl).1
      · exact ih l hl
  | changed _ _ _ ih => exact ih

theorem changedLines_change (h : Tiles o n bs olds news) : ∀ l ∈ changedLines bs, l.change ≠ .keep := by
  induction h with
  | nil => exact nofun
  | same _ _ ih => exact ih
  | changed removed added _ ih =>
      intro l hl
      obtain hl | hl := List.mem_append.1 hl
      · obtain hl | hl := List.mem_append.1 hl
        · rw [(mem_number hl).1]
          decide
        · rw [(mem_number hl).1]
          decide
      · exact ih l hl

end Tiles

/-- A pending change is a block before those that follow. -/
theorem Pending.tiles (p : Pending α) {o n : Nat} {bs : List (Block α)} {olds news : List α}
    (h : Tiles (o + p.removed.length) (n + p.added.length) bs olds news) :
    Tiles o n (p.block (o + p.removed.length) (n + p.added.length) ++ bs) (p.removed ++ olds)
      (p.added ++ news) := by
  rw [Pending.block]
  split
  · rename_i hempty
    rw [Bool.and_eq_true, List.isEmpty_iff, List.isEmpty_iff] at hempty
    rw [hempty.1, hempty.2] at h ⊢
    exact h
  · rw [Nat.add_sub_cancel, Nat.add_sub_cancel]
    exact .changed p.removed p.added h

/-- The blocks of a script tile its two lists. -/
theorem tiles_blocks (rs : List (Run α)) (p : Pending α) (o n : Nat) :
    Tiles o n (blocks (o + p.removed.length) (n + p.added.length) p rs) (p.removed ++ oldSide rs)
      (p.added ++ newSide rs) := by
  induction rs generalizing p o n with
  | nil =>
      have := p.tiles (.nil (o + p.removed.length) (n + p.added.length))
      rwa [List.append_nil] at this
  | cons r rs ih =>
      obtain ⟨change, members⟩ := r
      cases change with
      | keep =>
          exact p.tiles (.same members (ih Pending.none (o + p.removed.length + members.length)
            (n + p.added.length + members.length)))
      | remove =>
          have := ih ⟨p.removed ++ members, p.added⟩ o n
          simpa [Run.old, Run.new, blocks, Nat.add_assoc] using this
      | add =>
          have := ih ⟨p.removed, p.added ++ members⟩ o n
          simpa [Run.old, Run.new, blocks, Nat.add_assoc] using this

end PugSize.LineDiff
