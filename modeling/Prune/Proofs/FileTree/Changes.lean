import Prune.Proofs.FileTree.Places

/-!
# Changes of file trees

A file tree comes out of another within some places (`FileTree.Within`) if it has the same files
elsewhere and no further links. Making directories does not touch any file
(`FileTree.within_makeDirectories`), and writing a file touches the one place where its path leads
(`FileTree.within_write`).
-/

namespace Prune.FileTree

/-- Whether a file tree has the files of another at all places that do not pass a test, and no
links that the other does not have. -/
structure Within (inside : Place → Prop) (t t' : FileTree) : Prop where
  workingDirectory_eq : t'.workingDirectory = t.workingDirectory
  file_iff : ∀ place, ¬inside place → ∀ content,
    t'.entryAt? place = some (.file content) ↔ t.entryAt? place = some (.file content)
  link : ∀ place target,
    t'.entryAt? place = some (.link target) → t.entryAt? place = some (.link target)

variable {inside : Place → Prop} {t t' t'' : FileTree}

theorem Within.refl (t : FileTree) :
  Within inside t t
  := ⟨rfl, fun _ _ _ => Iff.rfl, fun _ _ h => h⟩

theorem Within.trans (h : Within inside t t') (h' : Within inside t' t'') :
  Within inside t t''
  := by
  constructor
  · rw [h'.workingDirectory_eq, h.workingDirectory_eq]
  · intro place hplace content
    rw [h'.file_iff place hplace, h.file_iff place hplace]
  · intro place target hlink
    exact h.link place target (h'.link place target hlink)

theorem Within.resolve_eq (h : Within inside t t') (path : String) :
  t'.resolve path = t.resolve path
  := by
  rw [resolve, resolve, h.workingDirectory_eq]

theorem Within.start_eq (h : Within inside t t') (path : String) :
  t'.start path = t.start path
  := by
  rw [start, start, h.workingDirectory_eq]

/-- Where no link stands before a change none stands behind it. -/
theorem Within.unlinked {place : Place} {parts : List Path.Part} (h : Within inside t t')
    (hlinks : t.Unlinked place parts) :
  t'.Unlinked place parts
  := by
  intro front hfront target hlink
  exact hlinks front hfront target (h.link _ target hlink)

/-! ### Putting entries -/

theorem find?_putEntry (place other : Place) (entry : Entry) (entries : List (Place × Entry)) :
  ((putEntry place entry entries).find? fun e => e.1 == other)
    = if other = place then some (place, entry) else entries.find? fun e => e.1 == other
  := by
  induction entries with
  | nil =>
      by_cases h : other = place
      · simp [putEntry, h]
      · simp [putEntry, h, Ne.symm h]
  | cons e entries ih =>
      rw [putEntry]
      split
      · next he =>
        rw [beq_iff_eq] at he
        by_cases h : other = place
        · simp [h]
        · simp [h, Ne.symm h, he]
      · next he =>
        rw [List.find?_cons, ih, List.find?_cons]
        by_cases h : other = place
        · rw [Bool.not_eq_true] at he
          simp [h, he]
        · simp [h]

theorem entryAt?_put {place : Place} (hplace : place ≠ []) (entry : Entry) (other : Place) :
  (t.put place entry).entryAt? other = if other = place then some entry else t.entryAt? other
  := by
  unfold entryAt? put
  rw [find?_putEntry]
  by_cases h : other = place
  · simp [h, hplace]
  · simp [h]

theorem ne_nil_of_entryAt?_ne {place : Place} (h : t.entryAt? place ≠ some .directory) :
  place ≠ []
  := by
  rintro rfl
  exact h rfl

/-- What is put at a place that holds no file leaves the files elsewhere. -/
theorem within_put {place : Place} {entry : Entry} (hplace : place ≠ [])
    (hlink : ∀ target, entry ≠ .link target)
    (hinside : ¬inside place → ∀ content,
      t.entryAt? place ≠ some (.file content) ∧ entry ≠ .file content) :
  Within inside t (t.put place entry)
  := by
  constructor
  · rfl
  · intro other hother content
    rw [entryAt?_put hplace]
    split
    · next heq =>
      obtain ⟨hold, hnew⟩ := hinside (heq ▸ hother) content
      rw [heq]
      constructor
      · intro h
        exact absurd (Option.some.inj h) hnew
      · intro h
        exact absurd h hold
    · exact Iff.rfl
  · intro other target h
    rw [entryAt?_put hplace] at h
    split at h
    · exact absurd (Option.some.inj h) (hlink target)
    · exact h

/-! ### Directories -/

theorem within_makeDirectory {path : String} (h : t.makeDirectory path = .ok t') :
  Within inside t t'
  := by
  unfold makeDirectory at h
  split at h
  · contradiction
  · contradiction
  · next place asDirectory hlocate =>
    have hvacant : t.entryAt? place = none := sound_of_locate hlocate
    rw [← Except.ok.inj h]
    apply within_put
    · apply ne_nil_of_entryAt?_ne (t := t)
      simp [hvacant]
    · intro target hlink
      contradiction
    · intro _ content
      simp [hvacant]

/-- Making a directory with those above it touches no file, even if not all can be made. -/
theorem within_makeMissing (paths : List String) (t : FileTree) :
  Within inside t (t.makeMissing paths).1
  := by
  induction paths generalizing t with
  | nil => exact Within.refl t
  | cons path above ih =>
      have habove := ih t
      rw [makeMissing]
      split
      · exact Within.refl t
      · split
        · split
          · next made hmade =>
            rw [hmade] at habove
            dsimp only
            split
            · next made' hmade' => exact habove.trans (within_makeDirectory hmade')
            · exact habove
          · exact habove
        · dsimp only
          split
          · next made hmade => exact within_makeDirectory hmade
          · exact Within.refl t

theorem within_makeDirectories (path : String) (t : FileTree) :
  Within inside t (t.makeDirectories path).1
  := within_makeMissing (Path.ancestors path) t

/-! ### Files -/

/-- Without links on the way, writing a file touches the place that its path names. -/
theorem within_write {path text : String} (hlinks : t.Unlinked (t.start path) (Path.steps path))
    (hinside : inside (t.resolve path)) (h : t.write path text = .ok t') :
  Within inside t t'
  := by
  have hput {place : Place} (hplace : place = t.resolve path)
      (hentry : t.entryAt? place ≠ some .directory) :
      Within inside t (t.put place (.file text.toUTF8)) := by
    apply within_put (ne_nil_of_entryAt?_ne hentry)
    · intro target hlink
      contradiction
    · intro hnot
      exact absurd (hplace ▸ hinside) hnot
  unfold write at h
  split at h
  · contradiction
  · next place content hlocate =>
    have hfile : t.entryAt? place = some (.file content) := sound_of_locate hlocate
    have hplace : place = t.resolve path := place_of_locate hlinks hlocate
    rw [← Except.ok.inj h]
    apply hput hplace
    simp [hfile]
  · contradiction
  · next place asDirectory hlocate =>
    have hvacant : t.entryAt? place = none := sound_of_locate hlocate
    have hplace : place = t.resolve path := place_of_locate hlinks hlocate
    split at h
    · contradiction
    · rw [← Except.ok.inj h]
      apply hput hplace
      simp [hvacant]

end Prune.FileTree
