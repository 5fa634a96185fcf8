import Prune.Proofs.Path.Places

/-!
# Places in file trees

In a file tree a path names a place by its text alone (`FileTree.resolve`). Without links on the way
that is the place where the path leads (`FileTree.place_of_locate`), so that in a tree without links
each file is at the place that its path names (`FileTree.Linkless.place?_eq`). In a tree whose
places are made of names (`FileTree.Proper`) the walk from a path spells the paths below it by the
names on the way down (`FileTree.exists_of_mem_walk`).
-/

namespace Prune

/-- Whether an entry is a link. -/
def Entry.isLink : Entry → Bool
  | .link _ => true
  | _ => false

namespace FileTree

/-- The place that a path names in a file tree by its text alone. -/
def resolve (t : FileTree) (path : String) : Place :=
  Path.resolve t.workingDirectory path

/-- Whether the places of all entries are made of names. -/
def Proper (t : FileTree) : Prop :=
  ∀ e ∈ t.entries, ∀ name ∈ e.1, Path.IsName name

instance (t : FileTree) : Decidable t.Proper :=
  inferInstanceAs (Decidable (∀ e ∈ t.entries, ∀ name ∈ e.1, Path.IsName name))

/-! ### Walking -/

theorem isName_of_mem_below {t : FileTree} (ht : t.Proper) {place : Place} {way : List String}
    (h : way ∈ t.below place) :
  way ≠ [] ∧ ∀ name ∈ way, Path.IsName name
  := by
  obtain ⟨e, he, hway⟩ := List.mem_filterMap.mp h
  split at hway
  · next hbelow =>
    rw [Bool.and_eq_true, decide_eq_true_eq] at hbelow
    rw [← Option.some.inj hway]
    constructor
    · rw [ne_eq, List.drop_eq_nil_iff]
      omega
    · intro name hname
      exact ht e he name (List.mem_of_mem_drop hname)
  · contradiction

/-- A walk spells the paths below its start by names. -/
theorem exists_of_mem_walk {t : FileTree} (ht : t.Proper) {path file : String}
    {paths : List String} (h : t.walk path = .ok paths) (hfile : file ∈ paths) :
  path ≠ "" ∧ ∃ way, (∀ name ∈ way, Path.IsName name) ∧ file = Path.spell path way
  := by
  have hself : ∃ way, (∀ name ∈ way, Path.IsName name) ∧ path = Path.spell path way :=
    ⟨[], List.forall_mem_nil _, rfl⟩
  have hspelled (place : Place)
      (hmem : file ∈ path ::
        (t.below place).map fun way => Path.join path (String.intercalate "/" way)) :
      ∃ way, (∀ name ∈ way, Path.IsName name) ∧ file = Path.spell path way := by
    obtain rfl | hmem := List.mem_cons.mp hmem
    · exact hself
    · obtain ⟨way, hway, rfl⟩ := List.mem_map.mp hmem
      obtain ⟨hne, hnames⟩ := isName_of_mem_below ht hway
      use way, hnames
      simp [Path.spell, hne]
  constructor
  · rintro rfl
    simp [walk, find, locate] at h
  · unfold walk at h
    simp only at h
    split at h
    · contradiction
    · rw [← Except.ok.inj h] at hfile
      exact hspelled _ hfile
    · rw [← Except.ok.inj h, List.mem_singleton] at hfile
      rw [hfile]
      exact hself
    · split at h
      · contradiction
      · rw [← Except.ok.inj h] at hfile
        exact hspelled _ hfile
      · rw [← Except.ok.inj h, List.mem_singleton] at hfile
        rw [hfile]
        exact hself

/-! ### Locating -/

/-- The place where a path leads. -/
def Target.place : Target → Place
  | .entry place _ => place
  | .vacant place _ => place

/-- Whether no link stands at the places that parts lead to from a place. -/
def Unlinked (t : FileTree) (place : Place) (parts : List Path.Part) : Prop :=
  ∀ front, front <+: parts → ∀ target,
    t.entryAt? (Path.follow place front) ≠ some (.link target)

theorem Unlinked.tail {t : FileTree} {place : Place} {part : Path.Part} {parts : List Path.Part}
    (h : t.Unlinked place (part :: parts)) :
  t.Unlinked (part.follow place) parts
  := by
  intro front hfront target
  exact h (part :: front) (List.cons_prefix_cons.mpr ⟨rfl, hfront⟩) target

/-- The parts that pieces of a path count as. -/
def stepsOf (pieces : List String) : List Path.Part :=
  pieces.filterMap fun piece => Path.ofPiece? piece.toList

theorem stepsOf_piecesOf (path : String) :
  stepsOf (piecesOf path) = Path.steps path
  := by
  simp [stepsOf, piecesOf, Path.steps, Path.stepsOf, List.filterMap_map]

theorem stepsOf_idle {piece : String} (h : (piece == "" || piece == ".") = true)
    (rest : List String) :
  stepsOf (piece :: rest) = stepsOf rest
  := by
  rw [Bool.or_eq_true, beq_iff_eq, beq_iff_eq] at h
  obtain rfl | rfl := h
  · rfl
  · rfl

theorem stepsOf_parent {piece : String} (h : (piece == "..") = true) (rest : List String) :
  stepsOf (piece :: rest) = .parent :: stepsOf rest
  := by
  rw [beq_iff_eq.mp h]
  rfl

theorem stepsOf_name {piece : String} (hidle : ¬(piece == "" || piece == ".") = true)
    (hparent : ¬(piece == "..") = true) (rest : List String) :
  stepsOf (piece :: rest) = .name piece :: stepsOf rest
  := by
  have hpiece : Path.ofPiece? piece.toList = some (.name piece) := by
    rw [Bool.or_eq_true, beq_iff_eq, beq_iff_eq, not_or] at hidle
    rw [beq_iff_eq] at hparent
    have hempty : piece.toList ≠ [] := mt String.toList_eq_nil_iff.mp hidle.1
    have hcurrent : piece.toList ≠ ['.'] := fun h => hidle.2 (String.toList_injective h)
    have habove : piece.toList ≠ ['.', '.'] := fun h => hparent (String.toList_injective h)
    simp [Path.ofPiece?, hempty, hcurrent, habove]
  exact List.filterMap_cons_some hpiece

theorem stepsOf_of_all {pieces : List String} (h : pieces.all (· == "") = true) :
  stepsOf pieces = []
  := by
  rw [stepsOf, List.filterMap_eq_nil_iff]
  intro piece hpiece
  rw [beq_iff_eq.mp (List.all_eq_true.mp h piece hpiece)]
  rfl

section Locating

variable {t : FileTree} {followLast : Bool} {follow : Place → List String → Except Fault Target}

/-- Without links on the way, pieces lead down to the place that they name. -/
theorem place_of_descend {pieces : List String} {place : Place} {target : Target}
    (h : t.Unlinked place (stepsOf pieces))
    (hdescend : t.descend followLast follow place pieces = .ok target) :
  target.place = Path.follow place (stepsOf pieces)
  := by
  fun_induction descend t followLast follow place pieces with
  | case1 place =>
      rw [← Except.ok.inj hdescend]
      rfl
  | case2 place piece rest hidle ih =>
      rw [stepsOf_idle hidle] at h ⊢
      exact ih h hdescend
  | case3 place piece rest hidle hparent ih =>
      rw [stepsOf_parent hparent] at h ⊢
      exact ih h.tail hdescend
  | case4 place piece rest hidle hparent next hnone hall =>
      rw [← Except.ok.inj hdescend, stepsOf_name hidle hparent, stepsOf_of_all hall]
      rfl
  | case5 => contradiction
  | case6 place piece rest hidle hparent next hdirectory ih =>
      rw [stepsOf_name hidle hparent] at h ⊢
      exact ih h.tail hdescend
  | case7 place piece rest hidle hparent next content hfile hempty =>
      rw [← Except.ok.inj hdescend, stepsOf_name hidle hparent, List.isEmpty_iff.mp hempty]
      rfl
  | case8 => contradiction
  | case9 place piece rest hidle hparent next link hlink =>
      rw [stepsOf_name hidle hparent] at h
      exact absurd hlink (h [.name piece] (by simp) link)
  | case10 => contradiction
  | case11 place piece rest hidle hparent next link hlink =>
      rw [stepsOf_name hidle hparent] at h
      exact absurd hlink (h [.name piece] (by simp) link)

/-- What is found where a path leads: nothing at a vacant place, and a file where one is told. -/
def Target.Sound (t : FileTree) : Target → Prop
  | .vacant place _ => t.entryAt? place = none
  | .entry place (.file content) => t.entryAt? place = some (.file content)
  | .entry _ _ => True

theorem sound_of_descend {pieces : List String} {place : Place} {target : Target}
    (hfollow : ∀ place pieces target, follow place pieces = .ok target → target.Sound t)
    (hdescend : t.descend followLast follow place pieces = .ok target) :
  target.Sound t
  := by
  fun_induction descend t followLast follow place pieces with
  | case1 place =>
      rw [← Except.ok.inj hdescend]
      trivial
  | case2 place piece rest hidle ih => exact ih hdescend
  | case3 place piece rest hidle hparent ih => exact ih hdescend
  | case4 place piece rest hidle hparent next hnone hall =>
      rw [← Except.ok.inj hdescend]
      exact hnone
  | case5 => contradiction
  | case6 place piece rest hidle hparent next hdirectory ih => exact ih hdescend
  | case7 place piece rest hidle hparent next content hfile hempty =>
      rw [← Except.ok.inj hdescend]
      exact hfile
  | case8 => contradiction
  | case9 place piece rest hidle hparent next link hlink =>
      rw [← Except.ok.inj hdescend]
      trivial
  | case10 => contradiction
  | case11 place piece rest hidle hparent next link hlink =>
      exact hfollow _ _ _ hdescend

theorem sound_of_locateFrom {links : Nat} {pieces : List String} {place : Place} {target : Target}
    (h : t.locateFrom followLast links place pieces = .ok target) :
  target.Sound t
  := by
  induction links generalizing pieces place target with
  | zero => contradiction
  | succ links ih => exact sound_of_descend (fun _ _ _ => ih) h

theorem sound_of_locate {path : String} {target : Target}
    (h : t.locate followLast path = .ok target) :
  target.Sound t
  := by
  unfold locate at h
  split at h
  · contradiction
  · split at h
    · contradiction
    · exact sound_of_locateFrom h

/-- The place from which a path starts. -/
def start (t : FileTree) (path : String) : Place :=
  if Path.isAbsolute path then [] else t.workingDirectory

theorem resolve_eq (path : String) :
  t.resolve path = Path.follow (t.start path) (Path.steps path)
  := by
  unfold resolve start
  split
  · next h => rw [Path.resolve_absolute h]
  · next h => rw [Path.resolve_relative (by simpa using h)]

/-- Without links on the way, a path leads to the place that it names. -/
theorem place_of_locate {path : String} {target : Target}
    (h : t.Unlinked (t.start path) (Path.steps path))
    (hlocate : t.locate followLast path = .ok target) :
  target.place = t.resolve path
  := by
  rw [resolve_eq]
  rw [← stepsOf_piecesOf] at h ⊢
  unfold locate at hlocate
  split at hlocate
  · contradiction
  · split at hlocate
    · contradiction
    · exact place_of_descend h hlocate

end Locating

/-! ### Trees without links -/

/-- Whether a file tree has no links. -/
def Linkless (t : FileTree) : Prop :=
  ∀ e ∈ t.entries, e.2.isLink = false

instance (t : FileTree) : Decidable t.Linkless :=
  inferInstanceAs (Decidable (∀ e ∈ t.entries, e.2.isLink = false))

theorem mem_of_entryAt?_link {t : FileTree} {place : Place} {target : String}
    (h : t.entryAt? place = some (.link target)) :
  (place, .link target) ∈ t.entries
  := by
  unfold entryAt? at h
  split at h
  · simp at h
  · obtain ⟨e, hfind, hentry⟩ := Option.map_eq_some_iff.mp h
    have hplace : e.1 = place := by simpa using List.find?_some hfind
    rw [← hentry, ← hplace]
    exact List.mem_of_find?_eq_some hfind

theorem Linkless.unlinked {t : FileTree} (h : t.Linkless) (place : Place)
    (parts : List Path.Part) :
  t.Unlinked place parts
  := by
  intro front _ target hlink
  have hnot := h _ (mem_of_entryAt?_link hlink)
  contradiction

/-- Whether no link stands on the way that a path names, or below the place at its end. -/
structure Direct (t : FileTree) (path : String) : Prop where
  way : t.Unlinked (t.start path) (Path.steps path)
  below : ∀ e ∈ t.entries, t.resolve path <+: e.1 → e.2.isLink = false

theorem Linkless.direct {t : FileTree} (h : t.Linkless) (path : String) :
  t.Direct path
  := by
  constructor
  · exact h.unlinked _ _
  · intro e he _
    exact h e he

/-- No link stands on the way to a path that leads down from one without links below it. -/
theorem Direct.unlinked_join {t : FileTree} {base path : String} {names : List String}
    (h : t.Direct base) (hpath : Path.isAbsolute path = false)
    (hsteps : Path.steps path = names.map .name) :
  t.Unlinked (t.start (Path.join base path)) (Path.steps (Path.join base path))
  := by
  rw [start, Path.isAbsolute_join hpath, Path.steps_join hpath, hsteps]
  change t.Unlinked (t.start base) _
  intro front hfront target hlink
  obtain hway | ⟨rest, rfl⟩ :=
    List.prefix_or_prefix_of_prefix hfront (List.prefix_append (Path.steps base) _)
  · exact h.way front hway target hlink
  · rw [List.prefix_append_right_inj, List.prefix_map_iff] at hfront
    obtain ⟨way, -, rfl⟩ := hfront
    rw [Path.follow_append, Path.follow_names, ← resolve_eq] at hlink
    have hnot := h.below _ (mem_of_entryAt?_link hlink) (List.prefix_append _ _)
    contradiction

/-- The place where a path leads, if something stands there. -/
def place? (t : FileTree) (path : String) : Option Place :=
  (t.find true path).toOption.map (·.1)

theorem exists_of_isFile {t : FileTree} {path : String} (h : t.isFile path = true) :
  ∃ place content, t.locate true path = .ok (.entry place (.file content))
  := by
  unfold isFile at h
  split at h
  · next place content hfind =>
    use place, content
    unfold find at hfind
    split at hfind
    · contradiction
    · contradiction
    · next hlocate =>
      obtain ⟨rfl, rfl⟩ := Prod.mk.inj (Except.ok.inj hfind)
      exact hlocate
  · contradiction

/-- Without links a file is at the place that its path names. -/
theorem Linkless.place?_eq {t : FileTree} (h : t.Linkless) {path : String}
    (hfile : t.isFile path = true) :
  t.place? path = some (t.resolve path)
  := by
  obtain ⟨place, content, hlocate⟩ := exists_of_isFile hfile
  rw [place?, find, hlocate, ← place_of_locate (h.unlinked _ _) hlocate]
  rfl

theorem Linkless.exists_content {t : FileTree} (h : t.Linkless) {path : String}
    (hfile : t.isFile path = true) :
  ∃ content, t.entryAt? (t.resolve path) = some (.file content)
  := by
  obtain ⟨place, content, hlocate⟩ := exists_of_isFile hfile
  use content
  rw [← place_of_locate (h.unlinked _ _) hlocate]
  exact sound_of_locate hlocate

end FileTree

end Prune
