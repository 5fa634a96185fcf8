import Prune.Proofs.Path.Parts

/-!
# Places that paths name

From a directory a path names a place by its text alone (`Path.resolve`): each name leads down, two
points lead up, and a single point leads nowhere. A path that starts where another leads names what
it names from there (`Path.resolve_join`). The paths below a path are spelled by the names on the
way down (`Path.spell`), and two paths are spelled alike if the one that names a place below that of
the other is the other with these names behind it (`Path.Alike`).
-/

namespace Prune.Path

/-- The place that a part leads to from a place. -/
def Part.follow (place : Place) : Part → Place
  | .root => []
  | .current => place
  | .parent => place.dropLast
  | .name text => place ++ [text]

/-- The place that parts lead to from a place. -/
def follow (place : Place) (parts : List Part) : Place :=
  parts.foldl Part.follow place

/-- The place that a path names from a directory by its text alone. -/
def resolve (directory : Place) (path : String) : Place :=
  follow directory (parts path)

@[simp]
theorem follow_nil (place : Place) :
  follow place [] = place
  := rfl

@[simp]
theorem follow_cons (place : Place) (part : Part) (parts : List Part) :
  follow place (part :: parts) = follow (part.follow place) parts
  := rfl

theorem follow_append (place : Place) (parts others : List Part) :
  follow place (parts ++ others) = follow (follow place parts) others
  := List.foldl_append

theorem follow_names (place : Place) (way : List String) :
  follow place (way.map .name) = place ++ way
  := by
  induction way generalizing place with
  | nil => rw [List.map_nil, follow_nil, List.append_nil]
  | cons name way ih => rw [List.map_cons, follow_cons, ih, Part.follow, List.append_assoc,
      List.singleton_append]

theorem follow_filter (place : Place) (parts : List Part) :
  follow place (parts.filter (· != .current)) = follow place parts
  := by
  induction parts generalizing place with
  | nil => rfl
  | cons part parts ih =>
      rw [List.filter_cons]
      split
      · rw [follow_cons, follow_cons, ih]
      · next hpart =>
        have hcurrent : part = .current := by simpa using hpart
        rw [ih, hcurrent]
        rfl

/-- An absolute path names the same place from everywhere. -/
theorem resolve_absolute {path : String} (h : isAbsolute path = true) (directory : Place) :
  resolve directory path = follow [] (steps path)
  := by
  rw [resolve, parts_eq, isAbsolute_iff_front.mp h]
  rfl

theorem resolve_relative {path : String} (h : isAbsolute path = false) (directory : Place) :
  resolve directory path = follow directory (steps path)
  := by
  rw [resolve, parts_eq, follow_append]
  obtain hfront | hfront | hfront := front_cases path
  · rw [hfront]
    rfl
  · rw [hfront]
    rfl
  · rw [isAbsolute_iff_front.mpr hfront] at h
    contradiction

/-- A path that starts where another leads names what it names from there. -/
theorem resolve_join (directory : Place) (base path : String) :
  resolve directory (join base path) = resolve (resolve directory base) path
  := by
  cases hpath : isAbsolute path with
  | true => rw [join_absolute hpath, resolve_absolute hpath, resolve_absolute hpath]
  | false =>
      by_cases hbase : base = ""
      · rw [hbase, join_empty]
        rfl
      · rw [resolve, parts_join hbase hpath, follow_append, resolve_relative hpath]
        rfl

/-! ### Paths below a path -/

/-- The path that names on the way down lead to from a path. -/
def spell (path : String) (way : List String) : String :=
  if way.isEmpty then path else join path (String.intercalate "/" way)

section Spell

variable {way : List String}

theorem forall_isStep_names (h : ∀ name ∈ way, IsName name) :
  ∀ part ∈ way.map Part.name, part.IsStep
  := by
  intro part hpart
  obtain ⟨name, hname, rfl⟩ := List.mem_map.mp hpart
  exact .inr ⟨name, h name hname, rfl⟩

theorem intercalate_eq_written (way : List String) :
  String.intercalate "/" way = written (way.map .name)
  := by
  rw [written, List.map_map]
  congr 1
  exact (List.map_id _).symm

theorem isAbsolute_intercalate (h : ∀ name ∈ way, IsName name) :
  isAbsolute (String.intercalate "/" way) = false
  := by
  rw [← Bool.not_eq_true]
  intro habsolute
  have hfront := front_written (forall_isStep_names h)
  rw [← intercalate_eq_written, isAbsolute_iff_front.mp habsolute] at hfront
  contradiction

theorem steps_intercalate (h : ∀ name ∈ way, IsName name) :
  steps (String.intercalate "/" way) = way.map .name
  := by
  rw [intercalate_eq_written, steps_written (forall_isStep_names h)]

theorem parts_spell {path : String} (hpath : path ≠ "") (h : ∀ name ∈ way, IsName name) :
  parts (spell path way) = parts path ++ way.map .name
  := by
  unfold spell
  split
  · next hempty => rw [List.isEmpty_iff.mp hempty, List.map_nil, List.append_nil]
  · rw [parts_join hpath (isAbsolute_intercalate h), steps_intercalate h]

/-- Below a path that lies under another all paths do. -/
theorem isUnder_spell {path base : String} (hpath : path ≠ "") (h : ∀ name ∈ way, IsName name)
    (hunder : isUnder path base = true) :
  isUnder (spell path way) base = true
  := by
  rw [isUnder_iff] at hunder ⊢
  rw [parts_spell hpath h]
  exact hunder.trans (List.prefix_append _ _)

theorem resolve_spell (directory : Place) (path : String) (h : ∀ name ∈ way, IsName name) :
  resolve directory (spell path way) = resolve directory path ++ way
  := by
  unfold spell
  split
  · next hempty => rw [List.isEmpty_iff.mp hempty, List.append_nil]
  · rw [resolve_join, resolve_relative (isAbsolute_intercalate h), steps_intercalate h,
      follow_names]

/-- What ends in no slash goes on behind one. -/
theorem join_of_getLast? {base path : String} (hbase : base ≠ "")
    (hlast : base.toList.getLast? ≠ some '/') (hpath : isAbsolute path = false) :
  join base path = base ++ "/" ++ path
  := by
  have hempty : base.isEmpty = false := by simpa [String.isEmpty_iff] using hbase
  simp [join, hpath, hempty, hlast]

theorem getLast?_ne_of_isName {name : String} (h : IsName name) :
  ∃ c, name.toList.getLast? = some c ∧ c ≠ '/'
  := by
  obtain ⟨hname, hslash⟩ := h
  cases hlast : name.toList.getLast? with
  | none =>
      rw [List.getLast?_eq_none_iff, String.toList_eq_nil_iff] at hlast
      rw [hlast] at hname
      simp at hname
  | some c =>
      use c
      constructor
      · rfl
      · rintro rfl
        exact hslash (List.mem_of_getLast? hlast)

theorem getLast?_intercalate (h : ∀ name ∈ way, IsName name) :
  (String.intercalate "/" way).toList.getLast? ≠ some '/'
  := by
  cases way using List.reverseRecOn with
  | nil => simp
  | append_singleton way name =>
      obtain ⟨c, hlast, hc⟩ := getLast?_ne_of_isName (h name (by simp))
      by_cases hway : way = []
      · rw [hway]
        simpa [hlast] using hc
      · rw [String.intercalate_append_of_ne_nil hway (by simp), String.toList_append,
          List.getLast?_append]
        simpa [hlast] using hc

/-- What stands behind a path that is joined to another stands behind the whole. -/
theorem join_append {base path : String} (hpath : path ≠ "") (rest : String) :
  join base (path ++ rest) = join base path ++ rest
  := by
  have habsolute : isAbsolute (path ++ rest) = isAbsolute path := by
    have hne : path.toList ≠ [] := by simpa using hpath
    rw [isAbsolute, String.toList_append, List.head?_append_of_ne_nil _ hne, isAbsolute]
  unfold join
  rw [habsolute]
  split
  · rfl
  · split
    · rw [String.append_assoc]
    · rw [String.append_assoc, String.append_assoc, String.append_assoc]

theorem exists_join_eq (base path : String) :
  ∃ text, join base path = text ++ path
  := by
  unfold join
  split
  · use ""
    rw [String.empty_append]
  · split
    · use base
    · use base ++ "/"

theorem ne_empty_intercalate (h : ∀ name ∈ way, IsName name) (hway : way ≠ []) :
  String.intercalate "/" way ≠ ""
  := by
  intro hempty
  have hsteps := steps_intercalate h
  rw [hempty] at hsteps
  exact hway (List.map_eq_nil_iff.mp hsteps.symm)

/-- The way down from a path below a path goes on the way down to that. -/
theorem spell_spell (path : String) {more : List String} (h : ∀ name ∈ way, IsName name)
    (hmore : ∀ name ∈ more, IsName name) :
  spell (spell path way) more = spell path (way ++ more)
  := by
  by_cases hway : way = []
  · rw [hway]
    rfl
  · by_cases hmore' : more = []
    · rw [hmore', List.append_nil]
      rfl
    · have hspell (names : List String) (path : String) (hnames : names ≠ []) :
          spell path names = join path (String.intercalate "/" names) := by
        simp [spell, hnames]
      have hne := ne_empty_intercalate h hway
      obtain ⟨text, htext⟩ := exists_join_eq path (String.intercalate "/" way)
      have hempty : join path (String.intercalate "/" way) ≠ "" := by
        simp [htext, hne]
      have hlast : (join path (String.intercalate "/" way)).toList.getLast? ≠ some '/' := by
        rw [htext, String.toList_append,
          List.getLast?_append_of_ne_nil _ (mt String.toList_eq_nil_iff.mp hne)]
        exact getLast?_intercalate h
      calc
        spell (spell path way) more
          = join path (String.intercalate "/" way) ++ "/" ++ String.intercalate "/" more := by
            rw [hspell _ _ hmore', hspell _ _ hway,
              join_of_getLast? hempty hlast (isAbsolute_intercalate hmore)]
        _ = spell path (way ++ more) := by
            rw [hspell _ _ (List.append_ne_nil_of_left_ne_nil hway _),
              String.intercalate_append_of_ne_nil hway hmore', String.append_assoc,
              String.append_assoc, join_append hne]

theorem isAbsolute_spell (path : String) (h : ∀ name ∈ way, IsName name) :
  isAbsolute (spell path way) = isAbsolute path
  := by
  unfold spell
  split
  · rfl
  · exact isAbsolute_join (isAbsolute_intercalate h) path

end Spell

/-! ### Paths that are spelled alike -/

/-- Whether a path that names a place below that of another has its parts and these names. -/
def Alike (directory : Place) (path other : String) : Prop :=
  resolve directory path <+: resolve directory other →
    parts other = parts path
      ++ ((resolve directory other).drop (resolve directory path).length).map .name

instance (directory : Place) (path other : String) : Decidable (Alike directory path other) :=
  inferInstanceAs (Decidable (_ → _))

theorem Alike.parts_eq {directory : Place} {path other : String} {way : List String}
    (h : Alike directory path other)
    (hway : resolve directory other = resolve directory path ++ way) :
  parts other = parts path ++ way.map .name
  := by
  rw [h (hway ▸ List.prefix_append _ _), hway, List.drop_left]

/-- Paths that lead on by names from the same parts are spelled alike. -/
theorem alike_of_names {directory : Place} {path other : String} {parts : List Part}
    {way way' : List String} (hpath : Path.parts path = parts ++ way.map .name)
    (hother : Path.parts other = parts ++ way'.map .name) :
  Alike directory path other
  := by
  have hresolve {path : String} {way : List String}
      (hpath : Path.parts path = parts ++ way.map .name) :
      resolve directory path = follow directory parts ++ way := by
    rw [resolve, hpath, follow_append, follow_names]
  intro hbelow
  rw [hresolve hpath, hresolve hother, List.prefix_append_right_inj] at hbelow
  obtain ⟨between, rfl⟩ := hbelow
  rw [hresolve hpath, hresolve hother, ← List.append_assoc, List.drop_left, hpath, hother,
    List.map_append, List.append_assoc]

/-- Whether a path that names a place below that of another is the other with the names on the way
behind it. -/
def Continues (directory : Place) (path other : String) : Prop :=
  resolve directory path <+: resolve directory other →
    other = spell path ((resolve directory other).drop (resolve directory path).length)

instance (directory : Place) (path other : String) : Decidable (Continues directory path other) :=
  inferInstanceAs (Decidable (_ → _))

theorem Continues.eq_spell {directory : Place} {path other : String} {way : List String}
    (h : Continues directory path other)
    (hway : resolve directory other = resolve directory path ++ way) :
  other = spell path way
  := by
  conv_lhs => rw [h (hway ▸ List.prefix_append _ _), hway, List.drop_left]

/-- Paths below paths that continue each other name a place by one spelling. -/
theorem Continues.spell_eq {directory : Place} {path other : String} {way way' : List String}
    (h : Continues directory path other) (h' : Continues directory other path)
    (hway : ∀ name ∈ way, IsName name) (hway' : ∀ name ∈ way', IsName name)
    (heq : resolve directory path ++ way = resolve directory other ++ way') :
  spell path way = spell other way'
  := by
  obtain ⟨between, hbetween, hrest⟩ | ⟨between, hbetween, hrest⟩ := List.append_eq_append_iff.mp heq
  · rw [hrest] at hway
    rw [h.eq_spell hbetween, spell_spell _ (fun name hname => hway name (by simp [hname])) hway',
      hrest]
  · rw [hrest] at hway'
    rw [h'.eq_spell hbetween, spell_spell _ (fun name hname => hway' name (by simp [hname])) hway,
      hrest]

/-- Paths that are spelled by names from one path continue each other. -/
theorem continues_of_spell (directory : Place) (path : String) {way way' : List String}
    (hway : ∀ name ∈ way, IsName name) (hway' : ∀ name ∈ way', IsName name) :
  Continues directory (spell path way) (spell path way')
  := by
  intro hbelow
  rw [resolve_spell _ _ hway, resolve_spell _ _ hway', List.prefix_append_right_inj] at hbelow
  obtain ⟨between, rfl⟩ := hbelow
  rw [resolve_spell _ _ hway, resolve_spell _ _ hway', ← List.append_assoc, List.drop_left,
    spell_spell _ hway fun name hname => hway' name (List.mem_append_right _ hname)]

/-! ### Paths that lead down -/

/-- Whether a part is a name. -/
def Part.isName : Part → Bool
  | .name _ => true
  | _ => false

/-- Whether a path leads down by names alone. -/
def IsInner (path : String) : Prop :=
  ∀ part ∈ parts path, part.isName = true

instance (path : String) : Decidable (IsInner path) :=
  inferInstanceAs (Decidable (∀ part ∈ parts path, part.isName = true))

theorem exists_names_of_forall {parts : List Part} (h : ∀ part ∈ parts, part.isName = true) :
  ∃ names : List String, parts = names.map .name
  := by
  induction parts with
  | nil =>
      use []
      rfl
  | cons part parts ih =>
      obtain ⟨hpart, hparts⟩ := List.forall_mem_cons.mp h
      obtain ⟨names, rfl⟩ := ih hparts
      cases part with
      | name text =>
          use text :: names
          rfl
      | root => contradiction
      | current => contradiction
      | parent => contradiction

theorem IsInner.exists_names {path : String} (h : IsInner path) :
  ∃ names : List String, isAbsolute path = false ∧ steps path = names.map .name
  := by
  obtain ⟨names, hnames⟩ := exists_names_of_forall h
  have hfront : ∀ part ∈ front path, part.isName = true := by
    intro part hpart
    apply h
    rw [parts_eq]
    exact List.mem_append_left _ hpart
  obtain hnone | hcurrent | hroot := front_cases path
  · use names
    constructor
    · rw [← Bool.not_eq_true]
      intro habsolute
      rw [isAbsolute_iff_front.mp habsolute] at hnone
      contradiction
    · rwa [parts_eq, hnone] at hnames
  · rw [hcurrent] at hfront
    simp [Part.isName] at hfront
  · rw [hroot] at hfront
    simp [Part.isName] at hfront

end Prune.Path
