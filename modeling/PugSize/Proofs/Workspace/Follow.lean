import Mathlib
import PugSize.Proofs.Workspace.FileTree

/-!
Where paths lead. Writing a file where no directory is breaks no path: what led somewhere leads there
still. A file that is named behind a path is looked for in the directory to which the path leads.
-/

namespace PugSize.FileTree

variable {t : FileTree} {p q home : Place} {content : ByteArray}

theorem isDirectory_write_of (h : t.isDirectory q = true) : (t.write p content).isDirectory q = true := by
  simp only [isDirectory, write, Bool.or_eq_true, List.any_eq_true] at h ⊢
  obtain h | ⟨⟨r, old⟩, hmem, hr⟩ := h
  · exact .inl h
  by_cases hrp : r = p
  · exact .inr ⟨(p, content), List.mem_cons_self, hrp ▸ hr⟩
  · exact .inr ⟨(r, old), List.mem_cons_of_mem _ (List.mem_filter.2 ⟨hmem, by simpa using hrp⟩), hr⟩

theorem entry_eq_directory : t.entry q = .directory ↔
    t.files.lookup q = none ∧ t.isDirectory q = true := by
  unfold entry
  cases t.files.lookup q with
  | some content => simp
  | none => cases t.isDirectory q <;> simp

theorem entry_eq_file : t.entry q = .file content ↔ t.files.lookup q = some content := by
  unfold entry
  cases t.files.lookup q with
  | some content => simp
  | none => cases t.isDirectory q <;> simp

theorem entry_write_self : (t.write p content).entry p = .file content :=
  entry_eq_file.2 (lookup_write.trans (if_pos rfl))

/-- A directory stays one when a file is written that was none. -/
theorem entry_write_directory (hp : t.entry p ≠ .directory) (h : t.entry q = .directory) :
    (t.write p content).entry q = .directory := by
  have hne : q ≠ p := fun heq => hp (heq ▸ h)
  obtain ⟨hlookup, hdirectory⟩ := entry_eq_directory.1 h
  refine entry_eq_directory.2 ⟨?_, isDirectory_write_of hdirectory⟩
  rw [lookup_write, if_neg hne, hlookup]

/-- A path that leads somewhere still leads there when a file is written that was no directory. -/
theorem follow_write_of_ok (hp : t.entry p ≠ .directory) {parts : List String} {start place : Place}
    (h : t.follow start parts = .ok place) : (t.write p content).follow start parts = .ok place := by
  induction parts generalizing start with
  | nil => exact h
  | cons part rest ih =>
      rw [follow] at h ⊢
      split at h
      · cases h
      · cases h
      · rename_i hstart
        rw [entry_write_directory hp hstart]
        dsimp only
        split at h
        · rename_i hstay
          rw [if_pos hstay]
          exact ih h
        · rename_i hstay
          rw [if_neg hstay]
          split at h
          · rename_i hup
            rw [if_pos hup]
            exact ih h
          · rename_i hup
            rw [if_neg hup]
            exact ih h

/-- What is there stays there when another file is written. -/
theorem entry_write_other (hqp : q ≠ p) (h : t.entry q ≠ .absent) :
    (t.write p content).entry q = t.entry q := by
  cases hentry : t.entry q with
  | file old =>
      rw [entry_eq_file, lookup_write, if_neg hqp]
      exact entry_eq_file.1 hentry
  | directory =>
      obtain ⟨hlookup, hdirectory⟩ := entry_eq_directory.1 hentry
      rw [entry_eq_directory, lookup_write, if_neg hqp]
      exact ⟨hlookup, isDirectory_write_of hdirectory⟩
  | absent => exact absurd hentry h

/-- The place of a path is where the path leads, if something is there. -/
theorem locate_eq_ok {path : String} {place : Place} : t.locate home path = .ok place ↔ path ≠ "" ∧
    t.follow (if Path.isAbsolute path then [] else home) (Path.parts path) = .ok place ∧
      t.entry place ≠ .absent := by
  unfold locate
  by_cases hpath : path = ""
  · rw [if_pos hpath]
    simp [hpath, bind, Except.bind, throw, throwThe, MonadExceptOf.throw]
  · cases hfollow : t.follow (if Path.isAbsolute path then [] else home) (Path.parts path) with
    | error e => simp [hpath, bind, Except.bind]
    | ok place' =>
        cases hentry : t.entry place' <;>
          simp [hpath, bind, Except.bind, pure, Except.pure, throw, throwThe, MonadExceptOf.throw,
            hentry]
        all_goals
          rintro rfl
          simp [hentry]

/-- A file that stands elsewhere reads as before when a file is written that was no directory. -/
theorem readText_write_other (hp : t.entry p ≠ .directory) {path : String} {place : Place}
    (hplace : t.locate home path = .ok place) (hne : place ≠ p) :
    (t.write p content).readText home path = t.readText home path := by
  obtain ⟨hpath, hfollow, hentry⟩ := locate_eq_ok.1 hplace
  have hkept : (t.write p content).entry place = t.entry place := entry_write_other hne hentry
  have hlocate : (t.write p content).locate home path = .ok place :=
    locate_eq_ok.2 ⟨hpath, follow_write_of_ok hp hfollow, hkept ▸ hentry⟩
  simp only [readText, read, hlocate, hplace, bind, Except.bind, hkept]

theorem readText_of_lookup {path text : String} (hplace : t.locate home path = .ok p)
    (htext : t.files.lookup p = some text.toUTF8) : t.readText home path = .ok text := by
  have hentry : t.entry p = .file text.toUTF8 := entry_eq_file.2 htext
  simp only [readText, read, hplace, bind, Except.bind, hentry, pure, Except.pure, fromUTF8?_toUTF8]

theorem follow_append (start : Place) (parts rest : List String) :
    t.follow start (parts ++ rest) = (t.follow start parts).bind fun place => t.follow place rest := by
  induction parts generalizing start with
  | nil => rfl
  | cons part parts ih =>
      rw [List.cons_append, follow, follow]
      split
      · rfl
      · rfl
      · simp only [ih, apply_ite (Except.bind · fun place => t.follow place rest)]

/-- A directory is left only from where it can be entered. -/
theorem follow_empty (place : Place) (part : String) (rest : List String) :
    ((t.follow place [""]).bind fun place => t.follow place (part :: rest)) =
      t.follow place (part :: rest) := by
  rw [follow]
  split
  · rename_i hentry
    rw [follow, hentry]
    rfl
  · rename_i hentry
    rw [follow, hentry]
    rfl
  · rfl

/-- Where a path begins to lead from. -/
def start (home : Place) (path : String) : Place := if Path.isAbsolute path then [] else home

/-- Whether a path leads to a place, whatever is there. -/
def Leads (t : FileTree) (home : Place) (path : String) : Prop :=
  ∃ place, t.follow (start home path) (Path.parts path) = .ok place

theorem start_join {root file : String} (hfile : Path.isAbsolute file = false) :
    start home (Path.join root file) = start home root := by
  have hempty : Path.isAbsolute "" = false := rfl
  rw [Path.join, hfile, if_neg Bool.false_ne_true, start, start]
  split
  · rename_i hroot
    obtain hroot | hroot := Bool.or_eq_true_iff.1 hroot
    · obtain rfl := of_decide_eq_true hroot
      rw [String.empty_append, hfile, hempty]
    · obtain ⟨front, hfront⟩ := List.getLast?_eq_some_iff.1 (of_decide_eq_true hroot)
      have habsolute : Path.isAbsolute (root ++ file) = Path.isAbsolute root := by
        rw [Path.isAbsolute, Path.isAbsolute, String.toList_append, hfront]
        cases front <;> rfl
      rw [habsolute]
  · rename_i hroot
    have habsolute : Path.isAbsolute (root ++ "/" ++ file) = Path.isAbsolute root := by
      rw [Path.isAbsolute, Path.isAbsolute, String.toList_append, String.toList_append]
      cases hchars : root.toList with
      | nil =>
          have hnone : root = "" := String.toList_injective hchars
          exact absurd (Bool.or_eq_true_iff.2 (.inl (decide_eq_true hnone))) hroot
      | cons c cs => rfl
    rw [habsolute]

/-- A file that is named behind a path is looked for where the path leads. -/
theorem follow_join {root file name : String} (hname : Path.parts file = [name])
    (hfile : Path.isAbsolute file = false) (start : Place) :
    t.follow start (Path.parts (Path.join root file)) =
      (t.follow start (Path.parts root)).bind fun place => t.follow place [name] := by
  have hbehind (front : List Char) : ((front ++ '/' :: file.toList).splitOn '/').map String.ofList =
      (front.splitOn '/').map String.ofList ++ [name] := by
    rw [List.splitOn_append_cons_self, List.map_append]
    exact congrArg _ hname
  have hempty : Path.parts "" = [""] := rfl
  rw [Path.join, hfile, if_neg Bool.false_ne_true]
  split
  · rename_i hroot
    obtain hroot | hroot := Bool.or_eq_true_iff.1 hroot
    · obtain rfl := of_decide_eq_true hroot
      rw [String.empty_append, hname, hempty, follow_empty]
    · obtain ⟨front, hfront⟩ := List.getLast?_eq_some_iff.1 (of_decide_eq_true hroot)
      rw [Path.parts, Path.parts, String.toList_append, hfront, List.append_assoc, List.singleton_append,
        hbehind, List.splitOn_append_cons_self, List.map_append, follow_append, follow_append]
      cases t.follow start ((front.splitOn '/').map String.ofList) with
      | error e => rfl
      | ok place => exact (follow_empty place name []).symm
  · rw [Path.parts, String.toList_append, String.toList_append, List.append_assoc]
    exact (congrArg _ (hbehind root.toList)).trans (follow_append ..)

/-- The directory of a file that is there. -/
theorem isDirectory_of_lookup {name : String} (h : t.files.lookup (p ++ [name]) = some content) :
    t.isDirectory p = true := by
  obtain ⟨front, back, hfiles, -⟩ := List.lookup_eq_some_iff.1 h
  have hmem : (p ++ [name], content) ∈ t.files := by simp [hfiles]
  rw [isDirectory, Bool.or_eq_true]
  refine .inr (List.any_eq_true.2 ⟨_, hmem, ?_⟩)
  simp

theorem isFile_iff {path : String} : t.isFile home path = true ↔ path ≠ "" ∧
    ∃ place content, t.follow (start home path) (Path.parts path) = .ok place ∧
      t.entry place = .file content := by
  unfold isFile read locate start
  by_cases hpath : path = ""
  · rw [if_pos hpath]
    simp [hpath, bind, Except.bind, throw, throwThe, MonadExceptOf.throw]
  · cases hfollow : t.follow (if Path.isAbsolute path then [] else home) (Path.parts path) with
    | error e => simp [hpath, bind, Except.bind]
    | ok place =>
        cases hentry : t.entry place <;>
          simp [hpath, hentry, bind, Except.bind, pure, Except.pure, throw, throwThe,
            MonadExceptOf.throw]

/-- Whether a file that is named behind a path is there. -/
theorem isFile_join_iff {root file name : String} (hname : Path.parts file = [name])
    (hfile : Path.isAbsolute file = false) (hplain : name ∉ ["", ".", ".."]) :
    t.isFile home (Path.join root file) = true ↔ Path.join root file ≠ "" ∧ ∃ place content,
      t.follow (start home root) (Path.parts root) = .ok place ∧ t.entry place = .directory ∧
        t.entry (place ++ [name]) = .file content := by
  simp only [List.mem_cons, List.not_mem_nil, or_false, not_or] at hplain
  rw [isFile_iff, start_join hfile, follow_join hname hfile]
  cases t.follow (start home root) (Path.parts root) with
  | error e => simp [Except.bind]
  | ok place =>
      cases hentry : t.entry place <;>
        simp [Except.bind, follow, hentry, hplain]

end PugSize.FileTree
