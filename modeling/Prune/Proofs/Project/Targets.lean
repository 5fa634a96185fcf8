import Mathlib.Data.Finset.Card
import Prune.Proofs.Project.Scanning

/-!
# Files and their targets

A path that a scan spells names, as seen from the root, the same place as before
(`Project.resolve_relativePath`). If the paths that the scan starts from continue each other
(`Project.Coherent`) and all start from the root (`Project.Rooted`), then each file is scanned once,
and no two files have the same path as seen from the root or the same target
(`Project.nodup_scan`).
-/

namespace Prune.Project

variable {p : Project} {t : FileTree} {file other root : String} {way : List String}

/-! ### Paths as seen from the root -/

theorem parts_relativePath (p : Project) (file : String) :
  Path.parts (p.relativePath file)
    = (Path.parts ((Path.rest? file p.root).getD file)).filter (· != .current)
  := Path.parts_ofParts _

/-- Whether a path is seen from the root as it is seen from the working directory. -/
def Reaches (p : Project) (t : FileTree) (path : String) : Prop :=
  t.resolve p.root = t.workingDirectory ∨ Path.isAbsolute path = true ∨
    Path.isUnder path p.root = true

instance (p : Project) (t : FileTree) (path : String) : Decidable (p.Reaches t path) :=
  inferInstanceAs (Decidable (_ ∨ _))

/-- As seen from the root a path names the place that it names. -/
theorem resolve_relativePath (h : p.Reaches t file) :
  Path.resolve (t.resolve p.root) (p.relativePath file) = t.resolve file
  := by
  rw [Path.resolve, parts_relativePath, Path.follow_filter]
  change Path.resolve _ _ = _
  cases hrest : Path.rest? file p.root with
  | some rest =>
      rw [Option.getD_some, FileTree.resolve, FileTree.resolve, Path.resolve, Path.resolve,
        ← Path.follow_append, ← Path.parts_of_rest? hrest]
      rfl
  | none =>
      rw [Option.getD_none]
      obtain hroot | habsolute | hunder := h
      · rw [hroot]
        rfl
      · rw [FileTree.resolve, FileTree.resolve, Path.resolve_absolute habsolute,
          Path.resolve_absolute habsolute]
      · rw [← Path.isSome_rest?, hrest] at hunder
        contradiction

/-- Below a path that is seen from the root all paths are. -/
theorem Reaches.spell (h : p.Reaches t root) (hne : root ≠ "")
    (hway : ∀ name ∈ way, Path.IsName name) :
  p.Reaches t (Path.spell root way)
  := by
  obtain hroot | habsolute | hunder := h
  · exact .inl hroot
  · right
    left
    rw [Path.isAbsolute_spell root hway, habsolute]
  · right
    right
    exact Path.isUnder_spell hne hway hunder

/-- What is seen of a path below another is seen of that, or is a name on the way. -/
theorem mem_parts_rest_spell {part : Path.Part} (hne : root ≠ "")
    (hway : ∀ name ∈ way, Path.IsName name)
    (h : part ∈ Path.parts ((Path.rest? (Path.spell root way) p.root).getD (Path.spell root way))) :
  part ∈ Path.parts ((Path.rest? root p.root).getD root) ∨ part ∈ way.map Path.Part.name
  := by
  have hspell : Path.parts (Path.spell root way) = Path.parts root ++ way.map .name :=
    Path.parts_spell hne hway
  cases hroot : Path.rest? root p.root with
  | none =>
      have hmem : part ∈ Path.parts (Path.spell root way) := by
        cases hrest : Path.rest? (Path.spell root way) p.root with
        | none => rwa [hrest] at h
        | some rest =>
            rw [hrest] at h
            rw [Path.parts_of_rest? hrest]
            exact List.mem_append_right _ h
      rwa [hspell, List.mem_append] at hmem
  | some rest =>
      cases hrest : Path.rest? (Path.spell root way) p.root with
      | none =>
          have hunder : Path.isUnder root p.root = true := by
            rw [← Path.isSome_rest?, hroot]
            rfl
          have hnot := Path.isUnder_spell hne hway hunder
          rw [← Path.isSome_rest?, hrest] at hnot
          contradiction
      | some behind =>
          rw [Path.parts_of_rest? hroot, Path.parts_of_rest? hrest, List.append_assoc,
            List.append_cancel_left_eq] at hspell
          rw [hrest, Option.getD_some, hspell, List.mem_append] at h
          exact h

/-- Below a path that leads down from the root all paths do. -/
theorem isInner_relativePath_spell (hne : root ≠ "") (hway : ∀ name ∈ way, Path.IsName name)
    (h : Path.IsInner (p.relativePath root)) :
  Path.IsInner (p.relativePath (Path.spell root way))
  := by
  intro part hpart
  rw [parts_relativePath, List.mem_filter] at hpart
  obtain ⟨hmem, hcurrent⟩ := hpart
  obtain hmem | hname := mem_parts_rest_spell hne hway hmem
  · apply h
    rw [parts_relativePath, List.mem_filter]
    exact ⟨hmem, hcurrent⟩
  · obtain ⟨name, -, rfl⟩ := List.mem_map.mp hname
    rfl

/-! ### Files that are scanned once -/

/-- Whether the paths that the scan starts from continue each other. -/
def Coherent (p : Project) (t : FileTree) : Prop :=
  ∀ root ∈ (p.scanRequest.roots t).1, ∀ other ∈ (p.scanRequest.roots t).1,
    Path.Continues t.workingDirectory root other

instance (p : Project) (t : FileTree) : Decidable (p.Coherent t) :=
  inferInstanceAs (Decidable (∀ root ∈ (p.scanRequest.roots t).1,
    ∀ other ∈ (p.scanRequest.roots t).1, Path.Continues t.workingDirectory root other))

/-- Whether the paths that the scan starts from are seen from the root. -/
def Rooted (p : Project) (t : FileTree) : Prop :=
  ∀ root ∈ (p.scanRequest.roots t).1, p.Reaches t root

instance (p : Project) (t : FileTree) : Decidable (p.Rooted t) :=
  inferInstanceAs (Decidable (∀ root ∈ (p.scanRequest.roots t).1, p.Reaches t root))

/-- Whether the paths that the scan starts from lead down from the root. -/
def Inner (p : Project) (t : FileTree) : Prop :=
  ∀ root ∈ (p.scanRequest.roots t).1, Path.IsInner (p.relativePath root)

instance (p : Project) (t : FileTree) : Decidable (p.Inner t) :=
  inferInstanceAs (Decidable (∀ root ∈ (p.scanRequest.roots t).1,
    Path.IsInner (p.relativePath root)))

/-- Includes that are no patterns make the scan start from the root or from themselves, as seen from
there. -/
theorem eq_of_mem_roots (hliteral : ∀ entry ∈ p.config.includes, Glob.isPattern entry = false)
    (hroot : root ∈ (p.scanRequest.roots t).1) :
  root = p.root ∨ ∃ entry ∈ p.config.includes, root = Path.join p.root entry
  := by
  unfold ScanRequest.roots at hroot
  split at hroot
  · exact .inl (List.mem_singleton.mp hroot)
  · simp only [List.mem_flatMap, List.mem_map] at hroot
    obtain ⟨_, ⟨entry, hentry, rfl⟩, hroot⟩ := hroot
    unfold ScanRequest.rootsOf at hroot
    rw [hliteral entry hentry, if_neg Bool.false_ne_true] at hroot
    split at hroot
    · exact .inr ⟨entry, hentry, List.mem_singleton.mp hroot⟩
    · contradiction

/-- Includes that are names with slashes between them make the scan start from paths that are
spelled by names from the root. -/
theorem exists_way_of_mem_roots
    (hincludes : ∀ entry ∈ p.config.includes, Glob.isPattern entry = false ∧
      ∃ way, way ≠ [] ∧ (∀ name ∈ way, Path.IsName name) ∧ entry = String.intercalate "/" way)
    (hroot : root ∈ (p.scanRequest.roots t).1) :
  ∃ way, (∀ name ∈ way, Path.IsName name) ∧ root = Path.spell p.root way
  := by
  obtain rfl | ⟨entry, hentry, rfl⟩ :=
    eq_of_mem_roots (fun entry hentry => (hincludes entry hentry).1) hroot
  · exact ⟨[], List.forall_mem_nil _, rfl⟩
  · obtain ⟨-, way, hway, hnames, rfl⟩ := hincludes entry hentry
    use way, hnames
    simp [Path.spell, hway]

/-- Paths to start from that are spelled by names from the root continue each other, are seen from
the root and lead down from it. -/
theorem coherent_of_spelled (hne : p.root ≠ "")
    (hroots : ∀ root ∈ (p.scanRequest.roots t).1,
      ∃ way, (∀ name ∈ way, Path.IsName name) ∧ root = Path.spell p.root way) :
  p.Coherent t ∧ p.Rooted t ∧ p.Inner t
  := by
  have hself : Path.isUnder p.root p.root = true := Path.isUnder_iff.mpr (List.prefix_refl _)
  refine ⟨?_, ?_, ?_⟩
  · intro root hroot other hother
    obtain ⟨way, hway, rfl⟩ := hroots root hroot
    obtain ⟨way', hway', rfl⟩ := hroots other hother
    exact Path.continues_of_spell t.workingDirectory p.root hway hway'
  · intro root hroot
    obtain ⟨way, hway, rfl⟩ := hroots root hroot
    apply Reaches.spell _ hne hway
    right
    right
    exact hself
  · intro root hroot
    obtain ⟨way, hway, rfl⟩ := hroots root hroot
    apply isInner_relativePath_spell hne hway
    rw [← Path.isSome_rest?] at hself
    obtain ⟨rest, hrest⟩ := Option.isSome_iff_exists.mp hself
    have hnone : Path.parts rest = [] :=
      List.self_eq_append_right.mp (Path.parts_of_rest? hrest)
    intro part hpart
    rw [parts_relativePath, hrest, Option.getD_some, hnone] at hpart
    contradiction

theorem isFile_of_mem_scan (h : file ∈ (p.scan t).files) :
  t.isFile file = true
  := by
  have htakes := (mem_files_iff.mp h).1
  rw [ScanRequest.takes, Bool.and_eq_true, Bool.and_eq_true] at htakes
  exact htakes.1.2

theorem Rooted.reaches (h : p.Rooted t) (ht : t.Proper) (hfile : file ∈ (p.scan t).files) :
  p.Reaches t file
  := by
  obtain ⟨root, hroot, hne, way, hway, rfl⟩ := exists_root_of_mem_files ht hfile
  exact (h root hroot).spell hne hway

theorem Inner.isInner (h : p.Inner t) (ht : t.Proper) (hfile : file ∈ (p.scan t).files) :
  Path.IsInner (p.relativePath file)
  := by
  obtain ⟨root, hroot, hne, way, hway, rfl⟩ := exists_root_of_mem_files ht hfile
  exact isInner_relativePath_spell hne hway (h root hroot)

/-- Scanned files that name one place are spelled in one way. -/
theorem Coherent.eq_of_resolve_eq (h : p.Coherent t) (ht : t.Proper)
    (hfile : file ∈ (p.scan t).files) (hother : other ∈ (p.scan t).files)
    (heq : t.resolve file = t.resolve other) :
  file = other
  := by
  obtain ⟨root, hroot, -, way, hway, rfl⟩ := exists_root_of_mem_files ht hfile
  obtain ⟨root', hroot', -, way', hway', rfl⟩ := exists_root_of_mem_files ht hother
  rw [FileTree.resolve, FileTree.resolve, Path.resolve_spell _ _ hway,
    Path.resolve_spell _ _ hway'] at heq
  exact (h root hroot root' hroot').spell_eq (h root' hroot' root hroot) hway hway' heq

/-- A file that leads down from the root has its target as far below the output directory. -/
theorem exists_names_target (h : p.Reaches t file) (hinner : Path.IsInner (p.relativePath file)) :
  ∃ names, t.resolve file = t.resolve p.root ++ names ∧
    t.resolve (p.outputPath file) = t.resolve p.outDir ++ names
  := by
  obtain ⟨names, hrelative, hsteps⟩ := hinner.exists_names
  have hnames (place : Place) : Path.resolve place (p.relativePath file) = place ++ names := by
    rw [Path.resolve_relative hrelative, hsteps, Path.follow_names]
  use names
  constructor
  · rw [← resolve_relativePath h, hnames]
  · rw [outputPath, FileTree.resolve, Path.resolve_join, hnames]
    rfl

theorem fileCount_processFiles (p : Project) (t : FileTree) (files : List String) :
  (p.processFiles t files).fileCount = files.length
  := by
  unfold processFiles ProjectRun.fileCount
  simp only [List.filterMap_map, Function.comp_def]
  induction files with
  | nil => rfl
  | cons file files ih =>
      rw [List.filterMap_cons, List.filterMap_cons, List.length_cons, ← ih]
      cases p.processFile t file with
      | ok processed => simp only [Except.toOption, Option.map_some, List.length_cons]; omega
      | error e => simp only [Except.toOption, Option.map_none, List.length_cons]; omega

/-- Each file is scanned once and counted once, and no two files have the same path as seen from
the root or, where the scan leads down from the root, the same target. This takes a tree without
links and paths to start from that continue each other and are seen from the root. -/
theorem nodup_scan (ht : t.Proper) (hlinks : t.Linkless) (hcoherent : p.Coherent t)
    (hrooted : p.Rooted t) :
  ((p.scan t).files.map t.place?).Nodup ∧
    (p.processFiles t (p.scan t).files).fileCount
      = ((p.scan t).files.map t.place?).toFinset.card ∧
    ((p.scan t).files.map p.relativePath).Nodup ∧
    (p.Inner t → ((p.scan t).files.map fun file => t.resolve (p.outputPath file)).Nodup)
  := by
  have hscan : (p.scan t).files.Nodup := nodup_files t p.scanRequest
  have hplaces : ((p.scan t).files.map t.place?).Nodup := by
    apply List.Nodup.map_on _ hscan
    intro file hfile other hother heq
    rw [hlinks.place?_eq (isFile_of_mem_scan hfile), hlinks.place?_eq (isFile_of_mem_scan hother)]
      at heq
    exact hcoherent.eq_of_resolve_eq ht hfile hother (Option.some.inj heq)
  refine ⟨hplaces, ?_, ?_, ?_⟩
  · rw [fileCount_processFiles, List.toFinset_card_of_nodup hplaces, List.length_map]
  · apply List.Nodup.map_on _ hscan
    intro file hfile other hother heq
    apply hcoherent.eq_of_resolve_eq ht hfile hother
    rw [← resolve_relativePath (hrooted.reaches ht hfile), heq,
      resolve_relativePath (hrooted.reaches ht hother)]
  · intro hinner
    apply List.Nodup.map_on _ hscan
    intro file hfile other hother heq
    obtain ⟨names, hplace, htarget⟩ :=
      exists_names_target (hrooted.reaches ht hfile) (hinner.isInner ht hfile)
    obtain ⟨names', hplace', htarget'⟩ :=
      exists_names_target (hrooted.reaches ht hother) (hinner.isInner ht hother)
    apply hcoherent.eq_of_resolve_eq ht hfile hother
    rw [htarget, htarget', List.append_cancel_left_eq] at heq
    rw [hplace, hplace', heq]

/-- A project whose includes are nested directories. -/
theorem nodup_scan_nested :
  let p : Project :=
    { config := { includes := ["src", "src/lib"], outDir := "./dist" }, root := "./" }
  let t : FileTree := {
    entries := [
      (["home", "src"], .directory), (["home", "src", "a.js"], .file "a();\n".toUTF8),
      (["home", "src", "lib"], .directory),
      (["home", "src", "lib", "b.js"], .file "b();\n".toUTF8)]
    workingDirectory := ["home"] }
  t.Proper ∧ t.Linkless ∧ p.Coherent t ∧ p.Rooted t ∧ p.Inner t ∧
    (p.scan t).files = ["./src/a.js", "./src/lib/b.js"] ∧
    ((p.scan t).files.map t.place?).Nodup ∧
    (p.processFiles t (p.scan t).files).fileCount
      = ((p.scan t).files.map t.place?).toFinset.card ∧
    ((p.scan t).files.map p.relativePath).Nodup ∧
    ((p.scan t).files.map fun file => t.resolve (p.outputPath file)).Nodup
  := by
  intro p t
  have ht : t.Proper := by decide
  have hlinks : t.Linkless := by decide
  have hcoherent : p.Coherent t := by decide
  have hrooted : p.Rooted t := by decide
  have hinner : p.Inner t := by decide
  have hfiles : (p.scan t).files = ["./src/a.js", "./src/lib/b.js"] := by decide
  obtain ⟨hplaces, hcount, hrelative, htargets⟩ := nodup_scan ht hlinks hcoherent hrooted
  exact ⟨ht, hlinks, hcoherent, hrooted, hinner, hfiles, hplaces, hcount, hrelative,
    htargets hinner⟩

/-- Includes that spell one directory in two ways give each of its files twice. -/
theorem not_nodup_scan_of_spellings :
  let p : Project :=
    { config := { includes := ["src", "./src"], outDir := "./dist" }, root := "./" }
  let t : FileTree := {
    entries := [(["home", "src"], .directory), (["home", "src", "a.js"], .file "a();\n".toUTF8)]
    workingDirectory := ["home"] }
  t.Linkless ∧ (p.scan t).files = ["././src/a.js", "./src/a.js"] ∧
    t.place? "././src/a.js" = t.place? "./src/a.js" ∧
    p.relativePath "././src/a.js" = p.relativePath "./src/a.js"
  := by
  intro p t
  have hlinks : t.Linkless := by decide
  have hfiles : (p.scan t).files = ["././src/a.js", "./src/a.js"] := by decide
  have hplace : t.place? "././src/a.js" = t.place? "./src/a.js" := by decide
  have hrelative : p.relativePath "././src/a.js" = p.relativePath "./src/a.js" := by decide
  exact ⟨hlinks, hfiles, hplace, hrelative⟩

end Prune.Project
