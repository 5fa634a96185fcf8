import Prune.Proofs.FileTree.Changes
import Prune.Proofs.Project.Targets
import Prune.Proofs.Session

/-!
# What a build writes

Without `--apply` a build leaves the file tree as it is. With it, each file that leads down from the
root has its target below the output directory, so that writing it touches no file elsewhere
(`Project.Confined.keeps_writeOutput`), and neither does the whole build (`runProgram_build`).
-/

namespace Prune

/-! ### Writing the output for a file -/

namespace Project

/-- Whether the output of a project stays in its output directory: its files lead down from the
root, and no link stands on the way to that directory or in it. -/
structure Confined (p : Project) (t : FileTree) : Prop where
  proper : t.Proper
  inner : p.Inner t
  direct : t.Direct p.outDir

variable {p : Project} {t : FileTree} {file : String} {w : World}

/-- Writing the output for a scanned file touches no file outside of the output directory. -/
theorem Confined.keeps_writeOutput (h : p.Confined t) (hfile : file ∈ (p.scan t).files)
    (processed : Processed)
    (hw : FileTree.Within (fun place => t.resolve p.outDir <+: place) t w.tree) :
  Session.Keeps (FileTree.Within (fun place => t.resolve p.outDir <+: place) t)
    (Session.writeOutput p file processed) w
  := by
  obtain ⟨names, hrelative, hsteps⟩ := (h.inner.isInner h.proper hfile).exists_names
  have hlinks : t.Unlinked (t.start (p.outputPath file)) (Path.steps (p.outputPath file)) :=
    h.direct.unlinked_join hrelative hsteps
  have hinside : t.resolve p.outDir <+: t.resolve (p.outputPath file) := by
    rw [outputPath, FileTree.resolve, FileTree.resolve, Path.resolve_join,
      Path.resolve_relative hrelative, hsteps, Path.follow_names]
    exact List.prefix_append _ _
  apply Session.keeps_writeOutput hw
  · intro t' directory ht'
    exact ht'.trans (FileTree.within_makeDirectories directory t')
  · intro t' t'' ht' hwrite
    apply ht'.trans
    apply FileTree.within_write _ _ hwrite
    · rw [ht'.start_eq]
      exact ht'.unlinked hlinks
    · rwa [ht'.resolve_eq]

end Project

/-! ### Builds -/

/-- What a command keeps holds when the program ends. -/
theorem tree_runProgram {args : List String} {command : Option Command} {w : World}
    {inv : FileTree → Prop} (hargs : CommandLine.parse args = .ok command)
    (h : Session.Keeps inv (Command.run command) w) :
  inv (runProgram args w).1.tree
  := by
  unfold runProgram
  rw [hargs]
  dsimp only
  cases hrun : (Command.run command).run w with
  | ok status w' => exact h.ok status w' hrun
  | error trouble w' => exact h.error trouble w' hrun

section Build

variable {args : List String} {settings : Settings} {apply : Bool} {outDir : Option String}

/-- Without `--apply`, and where there is no project, a build leaves the file tree as it is. -/
theorem tree_runProgram_build_of_not {w : World}
    (hargs : CommandLine.parse args = .ok (some (.build settings apply outDir)))
    (h : apply = false ∨ settings.buildProject? outDir w.tree = none) :
  (runProgram args w).1.tree = w.tree
  := by
  have hkeeps : Session.Keeps (w.tree = ·) (Session.build settings apply outDir) w := by
    apply Session.keeps_build rfl
    intro happly p hp
    obtain hnot | hnone := h
    · rw [happly] at hnot
      contradiction
    · rw [hp] at hnone
      contradiction
  exact (tree_runProgram hargs hkeeps).symm

/-- A build of a project whose output stays in its output directory touches no file elsewhere. -/
theorem within_runProgram_build {w : World} {p : Project}
    (hargs : CommandLine.parse args = .ok (some (.build settings apply outDir)))
    (hp : settings.buildProject? outDir w.tree = some p) (h : p.Confined w.tree) :
  FileTree.Within (fun place => w.tree.resolve p.outDir <+: place) w.tree
    (runProgram args w).1.tree
  := by
  apply tree_runProgram hargs
  apply Session.keeps_build (FileTree.Within.refl w.tree)
  intro happly p' hp' file hfile processed w' hw'
  obtain rfl := Option.some.inj (hp.symm.trans hp')
  exact h.keeps_writeOutput hfile processed hw'

/-- A build writes only inside of the output directory. Without `--apply`, and where there is no
project, it leaves the file tree as it is. Otherwise, if the output of the project stays in its
output directory, all files outside of that directory stay as they are, and there are no further
ones; if moreover there are no links and the scan stays apart from that directory, all scanned files
stay as they are. -/
theorem runProgram_build
    (hargs : CommandLine.parse args = .ok (some (.build settings apply outDir))) (w : World) :
  (apply = false ∨ settings.buildProject? outDir w.tree = none →
    (runProgram args w).1.tree = w.tree) ∧
  ∀ p, settings.buildProject? outDir w.tree = some p → p.Confined w.tree →
    FileTree.Within (fun place => w.tree.resolve p.outDir <+: place) w.tree
      (runProgram args w).1.tree ∧
    (w.tree.Linkless → (∀ root ∈ (p.scanRequest.roots w.tree).1, p.Separates w.tree root) →
      ∀ file ∈ (p.scan w.tree).files,
        (runProgram args w).1.tree.entryAt? (w.tree.resolve file)
          = w.tree.entryAt? (w.tree.resolve file))
  := by
  constructor
  · exact tree_runProgram_build_of_not hargs
  · intro p hp h
    have hwithin := within_runProgram_build hargs hp h
    constructor
    · exact hwithin
    · intro hlinks hroots file hfile
      have houtside := Project.not_under_outDir_of_mem_scan h.proper hroots file hfile
      obtain ⟨content, hcontent⟩ := hlinks.exists_content (Project.isFile_of_mem_scan hfile)
      rw [hcontent]
      exact (hwithin.file_iff _ houtside content).mpr hcontent

/-- A build of a project without a configuration file. -/
theorem runProgram_build_default :
  let p : Project := { config := Config.default, root := "./" }
  let w : World := {
    tree := {
      entries := [
        (["home", "src"], .directory), (["home", "src", "a.js"], .file "a();\n".toUTF8)]
      workingDirectory := ["home"] } }
  let t := (runProgram ["build", "--apply"] w).1.tree
  (runProgram ["build"] w).1.tree = w.tree ∧
    CommandLine.parse ["build", "--apply"] = .ok (some (.build {} true none)) ∧
    Settings.buildProject? {} none w.tree = some p ∧ p.Confined w.tree ∧ w.tree.Linkless ∧
    (∀ root ∈ (p.scanRequest.roots w.tree).1, p.Separates w.tree root) ∧
    (p.scan w.tree).files = ["./src/a.js"] ∧
    FileTree.Within (fun place => w.tree.resolve p.outDir <+: place) w.tree t ∧
    t.entryAt? (w.tree.resolve "./src/a.js") = w.tree.entryAt? (w.tree.resolve "./src/a.js")
  := by
  intro p w t
  have hargs : CommandLine.parse ["build", "--apply"] = .ok (some (.build {} true none)) := by rfl
  have hp : Settings.buildProject? {} none w.tree = some p := by rfl
  have hlinks : w.tree.Linkless := by decide
  have hconfined : p.Confined w.tree := ⟨by decide, by decide, hlinks.direct p.outDir⟩
  have hroots : ∀ root ∈ (p.scanRequest.roots w.tree).1, p.Separates w.tree root := by decide
  have hfiles : (p.scan w.tree).files = ["./src/a.js"] := by decide
  obtain ⟨hwithin, hscanned⟩ := (runProgram_build hargs w).2 p hp hconfined
  have hfile : "./src/a.js" ∈ (p.scan w.tree).files := by
    rw [hfiles]
    exact List.mem_singleton_self _
  refine ⟨?_, hargs, hp, hconfined, hlinks, hroots, hfiles, hwithin, ?_⟩
  · have hdry : CommandLine.parse ["build"] = .ok (some (.build {} false none)) := by rfl
    exact (runProgram_build hdry w).1 (.inl rfl)
  · exact hscanned hlinks hroots "./src/a.js" hfile

/-- An include that climbs above the root has its target outside of the output directory. -/
theorem runProgram_build_writes_outside :
  let args := ["build", "--apply", "--source-root", "proj"]
  let settings : Settings := { sourceRoot := some "proj" }
  let w : World := {
    tree := {
      entries := [
        (["home", "lib"], .directory), (["home", "lib", "a.js"], .file "x();\n".toUTF8),
        (["home", "proj"], .directory), (["home", "proj", "lib"], .directory),
        (["home", "proj", "lib", "a.js"], .file "y();\n".toUTF8),
        (["home", "proj", ".ifdefrc.json"],
          .file "\x7b\"includes\": [\"../lib\"]\x7d".toUTF8)]
      workingDirectory := ["home"] } }
  CommandLine.parse args = .ok (some (.build settings true none)) ∧
    (settings.buildProject? none w.tree).map (·.outDir) = some "proj/dist" ∧
    ¬w.tree.resolve "proj/dist" <+: w.tree.resolve "proj/lib/a.js" ∧
    w.tree.readText "proj/lib/a.js" = .ok "y();\n" ∧
    (runProgram args w).1.tree.readText "proj/lib/a.js" = .ok "x();\n"
  := by
  intro args settings w
  have hargs : CommandLine.parse args = .ok (some (.build settings true none)) := by rfl
  have houtDir : (settings.buildProject? none w.tree).map (·.outDir) = some "proj/dist" := by
    decide +kernel
  have houtside : ¬w.tree.resolve "proj/dist" <+: w.tree.resolve "proj/lib/a.js" := by decide
  have hbefore : w.tree.readText "proj/lib/a.js" = .ok "y();\n" := by decide +kernel
  have hafter : (runProgram args w).1.tree.readText "proj/lib/a.js" = .ok "x();\n" := by
    decide +kernel
  exact ⟨hargs, houtDir, houtside, hbefore, hafter⟩

end Build

end Prune
