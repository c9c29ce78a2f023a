import PugSize.Workspace.FileTree

/-!
Files that are written. Writing to a file that is there changes its content and nothing else, so
every path leads where it led before.
-/

namespace PugSize.FileTree

variable {t : FileTree} {p q home : Place} {content : ByteArray}

theorem lookup_filter_ne (files : List (Place × ByteArray)) (hq : q ≠ p) :
    (files.filter fun (r, _) => r != p).lookup q = files.lookup q := by
  induction files with
  | nil => rfl
  | cons f fs ih =>
      obtain ⟨r, old⟩ := f
      rw [List.filter_cons]
      by_cases hr : r = p
      · have hne : (q == r) = false := by
          rw [hr]
          simpa using hq
        simp only [hr, bne_self_eq_false, Bool.false_eq_true, if_false, ih, List.lookup_cons]
        rw [← hr, hne]
      · have hkept : (r != p) = true := by simpa using hr
        simp only [hkept, if_true, List.lookup_cons, ih]

theorem lookup_write : (t.write p content).files.lookup q =
    if q = p then some content else t.files.lookup q := by
  rw [write, List.lookup_cons]
  by_cases hq : q = p
  · simp [hq]
  · have hne : (q == p) = false := by simpa using hq
    rw [hne, if_neg hq]
    exact lookup_filter_ne _ hq

section

variable {old : ByteArray} (hold : t.files.lookup p = some old)
include hold

theorem isDirectory_write : (t.write p content).isDirectory q = t.isDirectory q := by
  obtain ⟨front, rest, hfiles, -⟩ := List.lookup_eq_some_iff.1 hold
  have hmem : (p, old) ∈ t.files := by simp [hfiles]
  -- The places of the files are the same, though not in the same order.
  have hplaces (P : Place → Bool) : ((p, content) :: t.files.filter fun (r, _) => r != p).any
      (fun (r, _) => P r) = t.files.any fun (r, _) => P r := by
    rw [Bool.eq_iff_iff, List.any_eq_true, List.any_eq_true]
    constructor
    · rintro ⟨⟨r, c⟩, hr, hP⟩
      obtain hr | hr := List.mem_cons.1 hr
      · rw [Prod.mk.injEq] at hr
        exact ⟨(p, old), hmem, hr.1 ▸ hP⟩
      · exact ⟨(r, c), (List.mem_filter.1 hr).1, hP⟩
    · rintro ⟨⟨r, c⟩, hr, hP⟩
      by_cases hrp : r = p
      · exact ⟨(p, content), List.mem_cons_self, hrp ▸ hP⟩
      · exact ⟨(r, c), List.mem_cons_of_mem _ (List.mem_filter.2 ⟨hr, by simpa using hrp⟩), hP⟩
  rw [isDirectory, isDirectory]
  exact congrArg _ (hplaces fun r => q.isPrefixOf r && q.length < r.length)

/-- What stands at a place, but for the content of the file that is written. -/
theorem entry_write : (t.write p content).entry q =
    if q = p then .file content else t.entry q := by
  rw [entry, lookup_write, isDirectory_write hold, entry]
  by_cases hq : q = p
  · simp [hq]
  · simp [hq]

theorem follow_write (parts : List String) (place : Place) :
    (t.write p content).follow place parts = t.follow place parts := by
  induction parts generalizing place with
  | nil => rfl
  | cons part rest ih =>
      rw [follow, follow, entry_write hold]
      by_cases hplace : place = p
      · have hentry : t.entry place = .file old := by rw [entry, hplace, hold]
        rw [if_pos hplace, hentry]
      · rw [if_neg hplace]
        simp only [ih]

theorem locate_write (path : String) : (t.write p content).locate home path = t.locate home path := by
  by_cases hpath : path = ""
  · rw [locate, locate, if_pos hpath, if_pos hpath]
    rfl
  · simp only [locate, if_neg hpath, follow_write hold]
    cases t.follow (if Path.isAbsolute path then [] else home) (Path.parts path) with
    | error e => rfl
    | ok place =>
        simp only [bind, Except.bind, pure, Except.pure, entry_write hold]
        by_cases hplace : place = p
        · have hentry : t.entry p = .file old := by rw [entry, hold]
          rw [if_pos hplace, hplace, hentry]
        · rw [if_neg hplace]

/-- A file that is written reads as it was written. -/
theorem read_write {path : String} (hpath : t.locate home path = .ok p) :
    (t.write p content).read home path = .ok content := by
  rw [read, locate_write hold, hpath]
  simp only [bind, Except.bind, entry_write hold, if_true]
  rfl

end

theorem fromUTF8?_toUTF8 (s : String) : String.fromUTF8? s.toUTF8 = some s := by
  unfold String.fromUTF8?
  split
  · rfl
  · rename_i h
    exact absurd s.isValidUTF8 h

/-- A text that is read comes from a file, and a text written there is read instead. -/
theorem readText_write {path text : String} (h : t.readText home path = .ok text) (new : String) :
    ∃ place, t.locate home path = .ok place ∧
      (t.write place new.toUTF8).readText home path = .ok new := by
  rw [readText] at h
  cases hread : t.read home path with
  | error e =>
      rw [hread] at h
      cases h
  | ok bytes =>
      rw [read] at hread
      cases hlocate : t.locate home path with
      | error e =>
          rw [hlocate] at hread
          cases hread
      | ok place =>
          have hold : ∃ old, t.files.lookup place = some old := by
            cases hlookup : t.files.lookup place with
            | some old => exact ⟨old, rfl⟩
            | none =>
                rw [hlocate] at hread
                simp only [bind, Except.bind, entry, hlookup] at hread
                split at hread
                · rename_i hentry
                  split at hentry <;> cases hentry
                · cases hread
                · cases hread
          obtain ⟨old, hold⟩ := hold
          refine ⟨place, rfl, ?_⟩
          rw [readText, read_write hold hlocate]
          simp only [bind, Except.bind, fromUTF8?_toUTF8]
          rfl

end PugSize.FileTree
