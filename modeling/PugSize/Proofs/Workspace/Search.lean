import Mathlib
import PugSize.Proofs.Mixin.Registry
import PugSize.Workspace.Search

/-!
Searching a file tree with a walk. A search finds the files that the walk comes to and whose paths end
with the names that are looked for, each of them once and in order. So nothing that is found depends on
the order in which the walk comes to its entries, nor on how often.
-/

namespace PugSize

/-- Whether two walks come to the same entries, in any order and however often. -/
def Walker.SameEntries (walk walk' : Walker) : Prop :=
  ∀ t directory p, p ∈ walk' t directory ↔ p ∈ walk t directory

namespace FileTree

variable {t : FileTree} {walk walk' : Walker} {directory place : Place} {path : String}

/-- What is found, as it comes up in a walk. -/
theorem mem_filesEndingInBy_iff_filter (hnames : Path.names path ≠ []) :
    place ∈ t.filesEndingInBy walk directory path ↔ place ∈ (walk t directory).filter fun p =>
      t.hasFile (directory ++ p) && (Path.names path).isSuffixOf p := by
  rw [filesEndingInBy]
  dsimp only
  rw [if_neg (by simpa using hnames), List.mem_mergeSort, List.mem_eraseDups]

theorem mem_filesEndingInBy : place ∈ t.filesEndingInBy walk directory path ↔
    (place ∈ walk t directory ∧ t.hasFile (directory ++ place) = true) ∧
      Path.names path ≠ [] ∧ Path.names path <:+ place := by
  by_cases hnames : Path.names path = []
  · simp [filesEndingInBy, hnames]
  · rw [mem_filesEndingInBy_iff_filter hnames, List.mem_filter, Bool.and_eq_true,
      List.isSuffixOf_iff_suffix]
    tauto

/-- What is found is in order, and each file is found once. -/
theorem pairwise_filesEndingInBy (t : FileTree) (walk : Walker) (directory : Place) (path : String) :
    (t.filesEndingInBy walk directory path).Pairwise (· < ·) := by
  rw [filesEndingInBy]
  dsimp only
  split
  · exact .nil
  · generalize (walk t directory).filter (fun p =>
      t.hasFile (directory ++ p) && (Path.names path).isSuffixOf p) = found
    have hsorted := @List.pairwise_mergeSort _ (fun a b : Place => !decide (b < a))
      (fun a b c hab hbc => by
        simp only [Bool.not_eq_true', decide_eq_false_iff_not, not_lt] at *
        exact le_trans hab hbc)
      (fun a b => by
        simp only [Bool.or_eq_true, Bool.not_eq_true', decide_eq_false_iff_not, not_lt]
        exact le_total a b)
      found.eraseDups
    have hnodup := (List.mergeSort_perm found.eraseDups fun a b => !decide (b < a)).nodup_iff.2
      (Registry.nodup_eraseDups found)
    refine hsorted.imp₂ (fun a b hle hne => ?_) hnodup
    simp only [Bool.not_eq_true', decide_eq_false_iff_not, not_lt] at hle
    exact lt_of_le_of_ne hle hne

/-- Files that come up in order are found as they come up. -/
theorem filesEndingInBy_of_pairwise {found : List Place} (hnames : Path.names path ≠ [])
    (hfound : ((walk t directory).filter fun p =>
      t.hasFile (directory ++ p) && (Path.names path).isSuffixOf p) = found)
    (h : found.Pairwise (· < ·)) : t.filesEndingInBy walk directory path = found :=
  List.Pairwise.eq_of_mem_iff (pairwise_filesEndingInBy t walk directory path) h fun _ => by
    rw [mem_filesEndingInBy_iff_filter hnames, hfound]

/-- Walks that come to the same entries find the same files in the same order. -/
theorem filesEndingInBy_congr (h : walk.SameEntries walk') (directory : Place) (path : String) :
    t.filesEndingInBy walk' directory path = t.filesEndingInBy walk directory path := by
  refine List.Pairwise.eq_of_mem_iff (pairwise_filesEndingInBy t walk' directory path)
    (pairwise_filesEndingInBy t walk directory path) fun place => ?_
  rw [mem_filesEndingInBy, mem_filesEndingInBy, h]

end FileTree
end PugSize
