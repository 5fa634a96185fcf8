import Prune.Proofs.Project.Targets

/-!
# Ignored files

The ignores of a project are paths and patterns that start from its root, and name files as these
are seen from there (`Project.Names`).  But the scan compares them with the files as it spells
these, and so it obeys them only if the spelling of a file shows what is seen from the root
(`Project.Shows`, `Project.ignoresPath_of_names`): for a path the file has to start with the root,
and for a pattern with what is seen from there, or end in it if the pattern begins with a star.  All
paths are obeyed if the includes are relative paths, and all patterns that begin with a star if the
includes are names with slashes between them (`Project.not_names_of_mem_scan`).
-/

namespace Prune

/-! ### Patterns that begin with a star -/

namespace Glob

variable {test : List Char → Bool} {before cs : List Char} {pattern : String} {tokens : List Token}

theorem someEnd_append (h : someEnd test cs = true) (before : List Char) :
  someEnd test (before ++ cs) = true
  := by
  induction before with
  | nil => exact h
  | cons c before ih => rw [List.cons_append, someEnd, ih, Bool.or_true]

theorem someRest_append (h : someRest test cs = true) (before : List Char) :
  someRest test (before ++ cs) = true
  := by
  induction before with
  | nil => exact h
  | cons c before ih => rw [List.cons_append, someRest, ih, Bool.or_true]

theorem token_of_stars {position : Nat} {last : Option Char} {behind : List Char} {token : Token}
    {skip : Nat} (h : stars position last behind = .ok (token, skip)) :
  token = .sequence ∨ token = .parts
  := by
  unfold stars at h
  split at h
  · contradiction
  · split at h
    · split at h
      · exact .inr (Prod.mk.inj (Except.ok.inj h)).1.symm
      · exact .inr (Prod.mk.inj (Except.ok.inj h)).1.symm
      · contradiction
    · contradiction
  · exact .inl (Prod.mk.inj (Except.ok.inj h)).1.symm

theorem exists_of_parse_star (hstar : pattern.toList.head? = some '*')
    (h : parse pattern = .ok tokens) :
  ∃ ts, tokens = .sequence :: ts ∨ tokens = .parts :: ts
  := by
  obtain ⟨cs, hcs⟩ := List.head?_eq_some_iff.mp hstar
  rw [parse, hcs, Glob.tokens] at h
  cases hstars : stars 0 none cs with
  | error fault =>
      simp only [hstars] at h
      contradiction
  | ok found =>
      obtain ⟨token, skip⟩ := found
      simp only [hstars] at h
      cases hrest : Glob.tokens 1 (some '*') skip cs with
      | error fault =>
          rw [hrest] at h
          contradiction
      | ok ts =>
          rw [hrest] at h
          use ts
          obtain rfl | rfl := token_of_stars hstars
          · exact .inl (Except.ok.inj h).symm
          · exact .inr (Except.ok.inj h).symm

/-- A pattern that begins with a star stands for all that ends, behind a slash, in a text that it
stands for. -/
theorem accepts_append (hstar : pattern.toList.head? = some '*')
    (hparse : parse pattern = .ok tokens) (h : accepts tokens cs = true)
    (hbefore : before = [] ∨ cs = [] ∨ before.getLast? = some '/') :
  accepts tokens (before ++ cs) = true
  := by
  obtain ⟨ts, rfl | rfl⟩ := exists_of_parse_star hstar hparse
  · rw [accepts] at h ⊢
    exact someEnd_append h before
  · rw [accepts, Bool.or_eq_true] at h ⊢
    obtain h | h := h
    · obtain rfl | rfl | hslash := hbefore
      · exact .inl h
      · right
        have hend : someRest (accepts ts) [] = true := h
        exact someRest_append hend before
      · obtain ⟨before, rfl⟩ := List.getLast?_eq_some_iff.mp hslash
        right
        rw [List.append_assoc]
        apply someRest_append
        rw [List.singleton_append, someRest, h]
        rfl
    · right
      exact someRest_append h before

end Glob

/-! ### Paths below an entry -/

namespace Path

variable {path entry : String}

/-- Whether a path lies under another, whose point in front does not count. -/
def LiesUnder (path entry : String) : Prop :=
  (parts entry).filter (· != .current) <+: parts path

instance (path entry : String) : Decidable (LiesUnder path entry) :=
  inferInstanceAs (Decidable (_ <+: _))

/-- Whether a path ends in another, behind a slash if anything stands before it. -/
def EndsIn (path ending : String) : Prop :=
  ∃ before, path = before ++ ending ∧
    (before = "" ∨ ending = "" ∨ before.toList.getLast? = some '/')

theorem filter_parts (h : isAbsolute path = false) :
  (parts path).filter (· != .current) = steps path
  := by
  rw [parts_eq, List.filter_append, filter_steps]
  obtain hfront | hfront | hfront := front_cases path
  · rw [hfront]
    rfl
  · rw [hfront]
    rfl
  · rw [isAbsolute_iff_front.mpr hfront] at h
    contradiction

theorem parts_absolute (h : isAbsolute path = true) :
  parts path = .root :: steps path
  := by
  rw [parts_eq, isAbsolute_iff_front.mp h]
  rfl

/-- Only the parts of absolute paths have the root among them. -/
theorem isAbsolute_of_root_mem (h : .root ∈ parts path) :
  isAbsolute path = true
  := by
  by_contra hrelative
  rw [Bool.not_eq_true] at hrelative
  have hmem : .root ∈ (parts path).filter (· != .current) := List.mem_filter.mpr ⟨h, rfl⟩
  rw [filter_parts hrelative] at hmem
  obtain hpart | ⟨name, -, hpart⟩ := isStep_of_mem_steps hmem
  · contradiction
  · contradiction

theorem endsIn_spell {way : List String} (h : ∀ name ∈ way, IsName name) :
  EndsIn (spell path way) (String.intercalate "/" way)
  := by
  unfold spell join
  rw [isAbsolute_intercalate h, Bool.false_or]
  split
  · next hway =>
    rw [List.isEmpty_iff.mp hway]
    exact ⟨path, (String.append_empty).symm, .inr (.inl rfl)⟩
  · split
    · exact ⟨"", (String.empty_append).symm, .inl rfl⟩
    · split
      · next hlast => exact ⟨path, rfl, .inr (.inr (beq_iff_eq.mp hlast))⟩
      · refine ⟨path ++ "/", rfl, .inr (.inr ?_)⟩
        rw [String.toList_append]
        exact List.getLast?_concat

end Path

/-! ### Entries of the ignores -/

namespace Project

variable {p : Project} {t : FileTree} {file entry : String} {way : List String}

/-- Whether an entry of the ignores names a file as seen from the root of a project. -/
def Names (p : Project) (entry file : String) : Prop :=
  if Glob.isPattern entry then
    ∃ tokens, Glob.parse entry = .ok tokens ∧
      Glob.accepts tokens (p.relativePath file).toList = true
  else Path.LiesUnder (p.relativePath file) entry

/-- Whether a file is spelled so that it can be compared with an entry of the ignores. -/
def Shows (p : Project) (entry file : String) : Prop :=
  if Glob.isPattern entry then
    file = p.relativePath file ∨
      entry.toList.head? = some '*' ∧ Path.EndsIn file (p.relativePath file)
  else
    Path.isAbsolute entry = true ∨
      Path.isUnder file p.root = true ∧ (p.root = "" → Path.front file = Path.front entry)

/-- What lies under an absolute path as seen from the root does so as it is spelled. -/
theorem isUnder_of_liesUnder_absolute (habsolute : Path.isAbsolute entry = true)
    (h : Path.LiesUnder (p.relativePath file) entry) :
  Path.isUnder file entry = true
  := by
  have hfilter {path : String} (hpath : Path.isAbsolute path = true) :
      (Path.parts path).filter (· != .current) = Path.parts path := by
    rw [Path.parts_absolute hpath, List.filter_cons_of_pos (by rfl), Path.filter_steps]
  rw [Path.LiesUnder, hfilter habsolute, parts_relativePath] at h
  have hroot : .root ∈ Path.parts ((Path.rest? file p.root).getD file) := by
    apply List.mem_of_mem_filter
    apply h.subset
    rw [Path.parts_absolute habsolute]
    exact List.mem_cons_self
  -- Behind the root of a project no path starts anew.
  have hfile : Path.parts ((Path.rest? file p.root).getD file) = Path.parts file := by
    cases hrest : Path.rest? file p.root with
    | none => rfl
    | some rest =>
        rw [hrest, Option.getD_some] at hroot
        have hparts := Path.parts_of_rest? hrest
        by_cases hnone : Path.parts p.root = []
        · rw [hparts, hnone]
          rfl
        · obtain hstep | ⟨name, -, hstep⟩ := Path.isStep_of_mem_behind hparts hnone hroot
          · contradiction
          · contradiction
  rw [hfile] at h hroot
  rw [hfilter (Path.isAbsolute_of_root_mem hroot)] at h
  exact Path.isUnder_iff.mpr h

theorem isUnder_join_of_liesUnder (hunder : Path.isUnder file p.root = true)
    (hfront : p.root = "" → Path.front file = Path.front entry)
    (hrelative : Path.isAbsolute entry = false)
    (h : Path.LiesUnder (p.relativePath file) entry) :
  Path.isUnder file (Path.join p.root entry) = true
  := by
  rw [← Path.isSome_rest?] at hunder
  obtain ⟨rest, hrest⟩ := Option.isSome_iff_exists.mp hunder
  have hparts : Path.parts file = Path.parts p.root ++ Path.parts rest := Path.parts_of_rest? hrest
  rw [Path.LiesUnder, Path.filter_parts hrelative, parts_relativePath, hrest, Option.getD_some] at h
  rw [Path.isUnder_iff]
  by_cases hroot : p.root = ""
  · have hfile : Path.isAbsolute file = false := by
      rw [← Bool.not_eq_true, Path.isAbsolute_iff_front, hfront hroot, ← Path.isAbsolute_iff_front,
        hrelative]
      exact Bool.false_ne_true
    rw [hroot] at hparts
    change Path.parts file = Path.parts rest at hparts
    rw [← hparts, Path.filter_parts hfile] at h
    rw [hroot, Path.join_empty, Path.parts_eq, Path.parts_eq file, hfront hroot,
      List.prefix_append_right_inj]
    exact h
  · rw [Path.filter_of_isStep fun _ =>
      Path.isStep_of_mem_behind hparts (Path.parts_ne_nil hroot)] at h
    rw [Path.parts_join hroot hrelative, hparts, List.prefix_append_right_inj]
    exact h

/-- A file that is named by an entry of the ignores, as its spelling shows, is ignored. -/
theorem ignoresPath_of_names (hentry : entry ∈ p.config.ignores) (hnames : p.Names entry file)
    (hshows : p.Shows entry file) :
  p.scanRequest.ignoresPath file = true
  := by
  have hmem : entry ∈ p.scanRequest.ignores := List.mem_append_left _ hentry
  cases hpattern : Glob.isPattern entry with
  | true =>
      rw [Names, if_pos hpattern] at hnames
      rw [Shows, if_pos hpattern] at hshows
      obtain ⟨tokens, hparse, haccepts⟩ := hnames
      have hfile : Glob.accepts tokens file.toList = true := by
        obtain heq | ⟨hstar, before, heq, hbefore⟩ := hshows
        · rw [heq]
          exact haccepts
        · rw [heq, String.toList_append]
          apply Glob.accepts_append hstar hparse haccepts
          rwa [String.toList_eq_nil_iff, String.toList_eq_nil_iff]
      rw [ScanRequest.ignoresPath, Bool.or_eq_true]
      right
      rw [List.any_eq_true]
      refine ⟨(entry, Glob.parse entry), ?_, ?_⟩
      · exact List.mem_map.mpr ⟨entry, List.mem_filter.mpr ⟨hmem, hpattern⟩, rfl⟩
      · rw [hparse]
        exact hfile
  | false =>
      rw [Names, hpattern, if_neg Bool.false_ne_true] at hnames
      rw [Shows, hpattern, if_neg Bool.false_ne_true] at hshows
      have hignored : Path.join p.root entry ∈ p.scanRequest.ignoredPaths := by
        apply List.mem_map_of_mem
        rw [List.mem_filter]
        exact ⟨hmem, by rw [hpattern]; rfl⟩
      apply ignoresPath_of_isUnder hignored
      cases habsolute : Path.isAbsolute entry with
      | true =>
          rw [Path.join_absolute habsolute]
          exact isUnder_of_liesUnder_absolute habsolute hnames
      | false =>
          rw [habsolute] at hshows
          obtain ⟨hunder, hfront⟩ := hshows.resolve_left Bool.false_ne_true
          exact isUnder_join_of_liesUnder hunder hfront habsolute hnames

/-! ### Files that are spelled from the root -/

/-- Includes that are relative paths make the scan spell its files from the root. -/
theorem isUnder_root_of_mem_scan (ht : t.Proper) (hne : p.root ≠ "")
    (hincludes : ∀ included ∈ p.config.includes,
      Glob.isPattern included = false ∧ Path.isAbsolute included = false)
    (hfile : file ∈ (p.scan t).files) :
  Path.isUnder file p.root = true
  := by
  obtain ⟨root, hroot, hroot', way, hway, rfl⟩ := exists_root_of_mem_files ht hfile
  apply Path.isUnder_spell hroot' hway
  rw [Path.isUnder_iff]
  obtain rfl | ⟨included, hincluded, rfl⟩ :=
    eq_of_mem_roots (fun included hincluded => (hincludes included hincluded).1) hroot
  · exact List.prefix_refl _
  · rw [Path.parts_join hne (hincludes included hincluded).2]
    exact List.prefix_append _ _

theorem relativePath_spell (hne : p.root ≠ "") (hway : ∀ name ∈ way, Path.IsName name) :
  p.relativePath (Path.spell p.root way) = String.intercalate "/" way
  := by
  have hparts := Path.parts_spell hne hway
  have hunder : Path.isUnder (Path.spell p.root way) p.root = true := by
    rw [Path.isUnder_iff, hparts]
    exact List.prefix_append _ _
  rw [← Path.isSome_rest?] at hunder
  obtain ⟨rest, hrest⟩ := Option.isSome_iff_exists.mp hunder
  rw [Path.parts_of_rest? hrest, List.append_cancel_left_eq] at hparts
  rw [relativePath, hrest, Option.getD_some, hparts,
    Path.filter_of_isStep (Path.forall_isStep_names hway), Path.intercalate_eq_written]
  cases way with
  | nil => rfl
  | cons name way => rfl

/-- Includes that are names with slashes between them make the scan spell its files as they are seen
from the root, behind a slash. -/
theorem endsIn_relativePath_of_mem_scan (ht : t.Proper) (hne : p.root ≠ "")
    (hincludes : ∀ included ∈ p.config.includes, Glob.isPattern included = false ∧
      ∃ way, way ≠ [] ∧ (∀ name ∈ way, Path.IsName name) ∧ included = String.intercalate "/" way)
    (hfile : file ∈ (p.scan t).files) :
  Path.EndsIn file (p.relativePath file)
  := by
  obtain ⟨root, hroot, -, more, hmore, rfl⟩ := exists_root_of_mem_files ht hfile
  obtain ⟨way, hway, rfl⟩ := exists_way_of_mem_roots hincludes hroot
  have hnames : ∀ name ∈ way ++ more, Path.IsName name :=
    List.forall_mem_append.mpr ⟨hway, hmore⟩
  rw [Path.spell_spell _ hway hmore, relativePath_spell hne hnames]
  exact Path.endsIn_spell hnames

/-- No scanned file is named by an entry of the ignores as seen from the root, if its spelling shows
this.  If the includes are relative paths, it is not named by any path; and if they are names with
slashes between them, it is not named by any pattern that begins with a star. -/
theorem not_names_of_mem_scan (p : Project) (t : FileTree) :
  (∀ file ∈ (p.scan t).files, ∀ entry ∈ p.config.ignores,
      p.Shows entry file → ¬p.Names entry file) ∧
    (t.Proper → p.root ≠ "" →
      (∀ included ∈ p.config.includes,
        Glob.isPattern included = false ∧ Path.isAbsolute included = false) →
      ∀ file ∈ (p.scan t).files, ∀ entry ∈ p.config.ignores, Glob.isPattern entry = false →
        ¬p.Names entry file) ∧
    (t.Proper → p.root ≠ "" →
      (∀ included ∈ p.config.includes, Glob.isPattern included = false ∧
        ∃ way, way ≠ [] ∧ (∀ name ∈ way, Path.IsName name) ∧
          included = String.intercalate "/" way) →
      ∀ file ∈ (p.scan t).files, ∀ entry ∈ p.config.ignores, entry.toList.head? = some '*' →
        ¬p.Names entry file)
  := by
  have hshown (file : String) (hfile : file ∈ (p.scan t).files) (entry : String)
      (hentry : entry ∈ p.config.ignores) (hshows : p.Shows entry file) :
      ¬p.Names entry file := by
    intro hnames
    have htakes := (mem_files_iff.mp hfile).1
    rw [ScanRequest.takes, ignoresPath_of_names hentry hnames hshows] at htakes
    contradiction
  refine ⟨hshown, ?_, ?_⟩
  · intro ht hne hincludes file hfile entry hentry hliteral
    apply hshown file hfile entry hentry
    rw [Shows, hliteral, if_neg Bool.false_ne_true]
    right
    exact ⟨isUnder_root_of_mem_scan ht hne hincludes hfile, fun hempty => absurd hempty hne⟩
  · intro ht hne hincludes file hfile entry hentry hstar
    apply hshown file hfile entry hentry
    have hpattern : Glob.isPattern entry = true := by
      rw [Glob.isPattern, List.any_eq_true]
      exact ⟨'*', List.mem_of_mem_head? hstar, rfl⟩
    rw [Shows, if_pos hpattern]
    right
    exact ⟨hstar, endsIn_relativePath_of_mem_scan ht hne hincludes hfile⟩

/-- A project that ignores a directory, a file, and files by their names wherever they are. -/
theorem not_names_of_mem_scan_tests :
  let p : Project := {
    config := { includes := ["src"], ignores := ["./src/gen", "src/b.js", "**/*.test.js"] }
    root := "./" }
  let t : FileTree := {
    entries := [
      (["home", "src"], .directory), (["home", "src", "a.js"], .file "a();\n".toUTF8),
      (["home", "src", "b.js"], .file "b();\n".toUTF8),
      (["home", "src", "a.test.js"], .file "a();\n".toUTF8),
      (["home", "src", "gen"], .directory), (["home", "src", "gen", "c.js"], .file "c();\n".toUTF8)]
    workingDirectory := ["home"] }
  t.Proper ∧ (p.scan t).files = ["./src/a.js"] ∧
    (p.Names "./src/gen" "./src/gen/c.js" ∧ p.Shows "./src/gen" "./src/gen/c.js" ∧
      "./src/gen/c.js" ∉ (p.scan t).files) ∧
    (p.Names "src/b.js" "./src/b.js" ∧ "./src/b.js" ∉ (p.scan t).files) ∧
    (p.Names "**/*.test.js" "./src/a.test.js" ∧ "./src/a.test.js" ∉ (p.scan t).files)
  := by
  intro p t
  have ht : t.Proper := by decide
  have hfiles : (p.scan t).files = ["./src/a.js"] := by decide +kernel
  have hgen : p.Names "./src/gen" "./src/gen/c.js" := by
    change Path.LiesUnder _ _
    decide
  have hshows : p.Shows "./src/gen" "./src/gen/c.js" := by
    change _ ∨ _
    decide
  have hfile : p.Names "src/b.js" "./src/b.js" := by
    change Path.LiesUnder _ _
    decide
  have htest : p.Names "**/*.test.js" "./src/a.test.js" := ⟨_, rfl, by decide⟩
  have hincludes : ∀ included ∈ p.config.includes, Glob.isPattern included = false ∧
      ∃ way, way ≠ [] ∧ (∀ name ∈ way, Path.IsName name) ∧
        included = String.intercalate "/" way := by
    intro included hincluded
    rw [List.mem_singleton.mp hincluded]
    exact ⟨by decide, ["src"], by decide, by decide, by decide⟩
  obtain ⟨hshown, hpaths, hstars⟩ := not_names_of_mem_scan p t
  refine ⟨ht, hfiles, ⟨hgen, hshows, ?_⟩, ⟨hfile, ?_⟩, ⟨htest, ?_⟩⟩
  · intro hmem
    exact hshown _ hmem "./src/gen" (by decide) hshows hgen
  · intro hmem
    exact hpaths ht (by decide) (by decide) _ hmem "src/b.js" (by decide) (by decide) hfile
  · intro hmem
    exact hstars ht (by decide) hincludes _ hmem "**/*.test.js" (by decide) (by decide) htest

/-- A pattern that does not begin with a star misses files that are spelled from the root, and a
path misses files that a pattern spells without the point of the root. -/
theorem names_of_spellings :
  let p : Project :=
    { config := { includes := ["src"], ignores := ["src/gen/*"] }, root := "./" }
  let p' : Project :=
    { config := { includes := ["src/*"], ignores := ["src/gen"] }, root := "./" }
  let t : FileTree := {
    entries := [
      (["home", "src"], .directory), (["home", "src", "gen"], .directory),
      (["home", "src", "gen", "a.js"], .file "a();\n".toUTF8)]
    workingDirectory := ["home"] }
  "./src/gen/a.js" ∈ (p.scan t).files ∧ p.Names "src/gen/*" "./src/gen/a.js" ∧
    "src/gen/a.js" ∈ (p'.scan t).files ∧ p'.Names "src/gen" "src/gen/a.js"
  := by
  intro p p' t
  have hnames : p.Names "src/gen/*" "./src/gen/a.js" := ⟨_, rfl, by decide⟩
  have hnames' : p'.Names "src/gen" "src/gen/a.js" := by
    change Path.LiesUnder _ _
    decide
  exact ⟨by decide +kernel, hnames, by decide +kernel, hnames'⟩

end Project

end Prune
