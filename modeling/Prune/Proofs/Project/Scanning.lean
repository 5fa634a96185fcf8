import Prune.Proofs.Scan
import Prune.Project

/-!
# What a project scans

The output directory of a project is the place that its path in the configuration names from the
root (`Project.resolve_outDir`). No scanned file lies in it if each path that the scan starts from
stays apart from it (`Project.Separates`, `Project.not_under_outDir_of_mem_scan`), as the paths do
that lead down from the root by names (`Project.separates_of_names`).
-/

namespace Prune.Project

variable {p : Project} {t : FileTree} {file : String}

/-! ### The output directory -/

theorem follow_of_all_current {parts : List Path.Part} (h : parts.all (· == .current) = true)
    (place : Place) :
  Path.follow place parts = place
  := by
  have hparts : ∀ part ∈ parts, part = .current := by
    intro part hpart
    exact beq_iff_eq.mp (List.all_eq_true.mp h part hpart)
  rw [List.eq_replicate_of_mem hparts]
  induction parts.length with
  | zero => rfl
  | succ n ih => exact ih

/-- A path of the configuration names the place that it names from the root. -/
theorem resolve_pathOf (p : Project) (t : FileTree) (path : String) :
  t.resolve (p.pathOf path) = t.resolve (Path.join p.root path)
  := by
  unfold pathOf FileTree.resolve
  split
  · next h =>
    rw [Bool.or_eq_true] at h
    obtain habsolute | hcurrent := h
    · rw [Path.join_absolute habsolute]
    · have hroot : Path.resolve t.workingDirectory p.root = t.workingDirectory :=
        follow_of_all_current hcurrent t.workingDirectory
      rw [Path.resolve_join, hroot]
  · rw [Path.resolve_join, Path.resolve_join]
    cases hrest : Path.rest? path "." with
    | none => rfl
    | some rest =>
        have hparts : Path.parts path = .current :: Path.parts rest := Path.parts_of_rest? hrest
        have hsame (place : Place) : Path.resolve place rest = Path.resolve place path := by
          unfold Path.resolve
          rw [hparts]
          rfl
        exact hsame _

/-- The path of the output directory, starting from the root as the ignored paths do. -/
def ignoredOutput (p : Project) : String :=
  Path.join p.root p.config.outDir

theorem resolve_outDir (p : Project) (t : FileTree) :
  t.resolve p.outDir = t.resolve p.ignoredOutput
  := resolve_pathOf p t p.config.outDir

/-- A relative path that is no pattern is ignored as the output directory. -/
theorem mem_ignoredPaths_ignoredOutput (hrelative : Path.isAbsolute p.config.outDir = false)
    (hliteral : Glob.isPattern p.config.outDir = false) :
  p.ignoredOutput ∈ p.scanRequest.ignoredPaths
  := by
  simp [ignoredOutput, ScanRequest.ignoredPaths, scanRequest, hrelative, hliteral]

/-- Whether a path that the scan starts from stays apart from the output directory: if one of them
lies below the other, the output directory is ignored and they are spelled alike. -/
def Separates (p : Project) (t : FileTree) (root : String) : Prop :=
  t.resolve p.ignoredOutput <+: t.resolve root ∨ t.resolve root <+: t.resolve p.ignoredOutput →
    p.ignoredOutput ∈ p.scanRequest.ignoredPaths ∧
      Path.Alike t.workingDirectory p.ignoredOutput root ∧
      Path.Alike t.workingDirectory root p.ignoredOutput

instance (p : Project) (t : FileTree) (root : String) : Decidable (p.Separates t root) :=
  inferInstanceAs (Decidable (_ → _))

theorem ignoresPath_of_isUnder {r : ScanRequest} {ignored : String} (h : ignored ∈ r.ignoredPaths)
    (hunder : Path.isUnder file ignored = true) :
  r.ignoresPath file = true
  := by
  rw [ScanRequest.ignoresPath, Bool.or_eq_true]
  left
  exact List.any_eq_true.mpr ⟨ignored, h, hunder⟩

/-- What lies in the output directory and below a path that stays apart from it is ignored. -/
theorem Separates.ignoresPath {root : String} {way : List String} (h : p.Separates t root)
    (hne : root ≠ "") (hway : ∀ name ∈ way, Path.IsName name)
    (hunder : t.resolve p.ignoredOutput <+: t.resolve (Path.spell root way)) :
  p.scanRequest.ignoresPath (Path.spell root way) = true
  := by
  have hspell : t.resolve (Path.spell root way) = t.resolve root ++ way :=
    Path.resolve_spell _ _ hway
  rw [hspell] at hunder
  have hparts {parts : List Path.Part} (hparts : Path.parts p.ignoredOutput = parts)
      (hfirst : parts <+: Path.parts root ++ way.map .name) :
      Path.isUnder (Path.spell root way) p.ignoredOutput = true := by
    rw [Path.isUnder_iff, Path.parts_spell hne hway, hparts]
    exact hfirst
  obtain habove | hbelow :=
    List.prefix_or_prefix_of_prefix hunder (List.prefix_append (t.resolve root) way)
  · obtain ⟨hignored, halike, -⟩ := h (.inl habove)
    obtain ⟨between, hbetween⟩ := habove
    apply ignoresPath_of_isUnder hignored
    apply hparts rfl
    rw [halike.parts_eq hbetween.symm, List.append_assoc]
    exact List.prefix_append _ _
  · obtain ⟨hignored, -, halike⟩ := h (.inr hbelow)
    obtain ⟨between, hbetween⟩ := hbelow
    rw [← hbetween, List.prefix_append_right_inj] at hunder
    apply ignoresPath_of_isUnder hignored
    apply hparts (halike.parts_eq hbetween.symm)
    rw [List.prefix_append_right_inj]
    exact hunder.map _

/-- Paths of the configuration that lead down from the root by names stay apart from an output
directory that does so, too. -/
theorem separates_of_names {entry : String} {names names' : List String} (hroot : p.root ≠ "")
    (hrelative : Path.isAbsolute p.config.outDir = false)
    (hliteral : Glob.isPattern p.config.outDir = false)
    (hsteps : Path.steps p.config.outDir = names.map .name)
    (hentry : Path.isAbsolute entry = false) (hsteps' : Path.steps entry = names'.map .name) :
  p.Separates t (Path.join p.root entry)
  := by
  have hparts : Path.parts p.ignoredOutput = Path.parts p.root ++ names.map .name := by
    rw [ignoredOutput, Path.parts_join hroot hrelative, hsteps]
  have hparts' : Path.parts (Path.join p.root entry) = Path.parts p.root ++ names'.map .name := by
    rw [Path.parts_join hroot hentry, hsteps']
  intro
  constructor
  · exact mem_ignoredPaths_ignoredOutput hrelative hliteral
  · constructor
    · exact Path.alike_of_names hparts hparts'
    · exact Path.alike_of_names hparts' hparts

/-- No scanned file lies in the output directory, if the paths that the scan starts from stay apart
from it. -/
theorem not_under_outDir_of_mem_scan (ht : t.Proper)
    (hroots : ∀ root ∈ (p.scanRequest.roots t).1, p.Separates t root) :
  ∀ file ∈ (p.scan t).files, ¬t.resolve p.outDir <+: t.resolve file
  := by
  intro file hfile hunder
  rw [resolve_outDir] at hunder
  obtain ⟨root, hroot, hne, way, hway, rfl⟩ := exists_root_of_mem_files ht hfile
  have htakes := (mem_files_iff.mp hfile).1
  rw [ScanRequest.takes, (hroots root hroot).ignoresPath hne hway hunder] at htakes
  contradiction

/-- A project that starts from its root and scans a directory above the output directory. -/
theorem not_under_outDir_of_mem_scan_dot :
  let p : Project := { config := { includes := [".", "src"], outDir := "dist" }, root := "./" }
  let t : FileTree := {
    entries := [
      (["home", "src"], .directory), (["home", "src", "a.js"], .file "a();\n".toUTF8),
      (["home", "dist"], .directory), (["home", "dist", "src"], .directory),
      (["home", "dist", "src", "a.js"], .file "a();\n".toUTF8)]
    workingDirectory := ["home"] }
  t.Proper ∧ (∀ root ∈ (p.scanRequest.roots t).1, p.Separates t root) ∧
    (p.scan t).files = ["././src/a.js", "./src/a.js"] ∧
    ¬t.resolve p.outDir <+: t.resolve "./src/a.js"
  := by
  intro p t
  have ht : t.Proper := by decide
  have hroots : ∀ root ∈ (p.scanRequest.roots t).1, p.Separates t root := by decide
  have hfiles : (p.scan t).files = ["././src/a.js", "./src/a.js"] := by decide
  refine ⟨ht, hroots, hfiles, ?_⟩
  apply not_under_outDir_of_mem_scan ht hroots
  rw [hfiles]
  decide

/-- A pattern spells what it stands for without the point of the root: then the output directory is
scanned. -/
theorem under_outDir_of_pattern :
  let p : Project := { config := { includes := ["*"], outDir := "dist" }, root := "./" }
  let t : FileTree := {
    entries := [
      (["home", "dist"], .directory), (["home", "dist", "a.js"], .file "a();\n".toUTF8)]
    workingDirectory := ["home"] }
  "dist/a.js" ∈ (p.scan t).files ∧ t.resolve p.outDir <+: t.resolve "dist/a.js"
  := by
  intro p t
  constructor
  · decide
  · decide

end Prune.Project
