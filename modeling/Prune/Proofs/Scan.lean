import Prune.Proofs.FileTree.Places
import Prune.Proofs.Sorting
import Prune.Scan

/-!
# The files of a scan

The files that a scan gives are those that it takes among the paths on its walks (`mem_files_iff`),
each of them once (`nodup_files`). In a tree whose places are made of names they are spelled by
names from the paths that the scan starts from (`exists_root_of_mem_files`).
-/

namespace Prune

/-! ### Sorted sets -/

theorem mem_sortedSet_iff {text : String} {texts : List String} :
  text ∈ sortedSet texts ↔ text ∈ texts
  := by
  rw [sortedSet, mem_eraseReps_iff, mem_sortBy_iff]

/-- A sorted set is in ascending order. -/
theorem pairwise_sortedSet (texts : List String) :
  (sortedSet texts).Pairwise (· < ·)
  := by
  have hle : (sortBy (fun a b : String => !(b < a)) texts).Pairwise (· ≤ ·) := by
    apply pairwise_sortBy (R := (· ≤ ·)) String.le_trans
    · intro a b hab
      simpa only [Bool.not_eq_true', decide_eq_false_iff_not, String.not_lt] using hab
    · intro a b hab
      have hlt : b < a := by simpa only [Bool.not_eq_false', decide_eq_true_eq] using hab
      exact String.not_lt.mp (fun h => String.lt_irrefl b (String.lt_trans hlt h))
  apply pairwise_eraseRepsBy (S := (· ≤ ·)) _ _ hle
  · intro a b hle hne
    obtain h | h | h := Std.lt_trichotomy a b
    · exact h
    · simp [h] at hne
    · exact absurd h (String.not_lt.mpr hle)
  · intro a b c hab hbc
    exact Std.lt_of_lt_of_le hab hbc

/-! ### Scans -/

variable {t : FileTree} {r : ScanRequest} {file : String}

theorem mem_files_iff :
  file ∈ (scan t r).files ↔
    r.takes t file = true ∧ ∃ root ∈ (r.roots t).1, ∃ paths, t.walk root = .ok paths ∧ file ∈ paths
  := by
  unfold scan
  simp only [mem_sortedSet_iff, List.mem_filter, List.mem_flatMap, List.mem_map]
  rw [and_comm]
  apply and_congr_right
  intro
  constructor
  · rintro ⟨_, ⟨root, hroot, rfl⟩, hfile⟩
    split at hfile
    · next paths hwalk => exact ⟨root, hroot, paths, hwalk, hfile⟩
    · contradiction
  · rintro ⟨root, hroot, paths, hwalk, hfile⟩
    refine ⟨_, ⟨root, hroot, rfl⟩, ?_⟩
    simpa [hwalk] using hfile

theorem nodup_files (t : FileTree) (r : ScanRequest) :
  (scan t r).files.Nodup
  := by
  apply (pairwise_sortedSet _).imp
  rintro a _ hlt rfl
  exact String.lt_irrefl a hlt

/-- A scan spells its files by names from the paths that it starts from. -/
theorem exists_root_of_mem_files (ht : t.Proper) (h : file ∈ (scan t r).files) :
  ∃ root ∈ (r.roots t).1, root ≠ "" ∧ ∃ way, (∀ name ∈ way, Path.IsName name) ∧
    file = Path.spell root way
  := by
  obtain ⟨-, root, hroot, paths, hwalk, hmem⟩ := mem_files_iff.mp h
  use root, hroot
  exact FileTree.exists_of_mem_walk ht hwalk hmem

end Prune
