import Prune.Session

/-!
# How sessions end

A session that starts in a world ends there well or in trouble (`Session.Ends`). Some leave the file
tree as it is (`Session.Leaves`), others keep what holds of it (`Session.Keeps`); there is one rule
for each way to put sessions together. Opening a project and scanning it leaves the file tree
(`Session.leaves_openProject`, `Session.leaves_scan`), and a build keeps what the writing of each
scanned file keeps (`Session.keeps_build`).
-/

namespace Prune

namespace Session

variable {α β : Type} {w : World} {bad : World → Prop} {good : α → World → Prop}

/-- Whether a session that starts in a world ends well with a result and a world as given, or in
trouble with a world as given. -/
structure Ends (s : Session α) (w : World) (bad : World → Prop) (good : α → World → Prop) :
    Prop where
  ok : ∀ a w', s.run w = .ok a w' → good a w'
  error : ∀ e w', s.run w = .error e w' → bad w'

theorem Ends.pure {a : α} (h : good a w) :
  Ends (pure a) w bad good
  := by
  constructor
  · rintro _ _ ⟨⟩
    exact h
  · rintro _ _ ⟨⟩

theorem Ends.throw {e : Trouble} (h : bad w) :
  Ends (throw e : Session α) w bad good
  := by
  constructor
  · rintro _ _ ⟨⟩
  · rintro _ _ ⟨⟩
    exact h

theorem Ends.modify {f : World → World} {good : Unit → World → Prop} (h : good () (f w)) :
  Ends (modify f) w bad good
  := by
  constructor
  · rintro _ _ ⟨⟩
    exact h
  · rintro _ _ ⟨⟩

theorem Ends.bind {s : Session α} {f : α → Session β} {good' : β → World → Prop}
    (h : Ends s w bad good) (hf : ∀ a w', good a w' → Ends (f a) w' bad good') :
  Ends (s >>= f) w bad good'
  := by
  constructor
  · intro b w' hrun
    rw [EStateM.run_bind] at hrun
    cases hs : s.run w with
    | ok a w₁ =>
        rw [hs] at hrun
        exact (hf a w₁ (h.ok a w₁ hs)).ok b w' hrun
    | error e w₁ =>
        rw [hs] at hrun
        contradiction
  · intro e w' hrun
    rw [EStateM.run_bind] at hrun
    cases hs : s.run w with
    | ok a w₁ =>
        rw [hs] at hrun
        exact (hf a w₁ (h.ok a w₁ hs)).error e w' hrun
    | error e' w₁ =>
        rw [hs] at hrun
        obtain ⟨rfl, rfl⟩ := EStateM.Result.error.inj hrun
        exact h.error _ _ hs

theorem Ends.mono {s : Session α} {bad' : World → Prop} {good' : α → World → Prop}
    (h : Ends s w bad good) (hbad : ∀ w', bad w' → bad' w')
    (hgood : ∀ a w', good a w' → good' a w') :
  Ends s w bad' good'
  := by
  constructor
  · intro a w' hrun
    exact hgood a w' (h.ok a w' hrun)
  · intro e w' hrun
    exact hbad w' (h.error e w' hrun)

/-! ### Sessions that change no file -/

/-- Whether a session that starts in a world leaves the file tree as it is, with a result as given
if it ends well. -/
def Leaves (s : Session α) (w : World) (good : α → Prop) : Prop :=
  Ends s w (fun w' => w'.tree = w.tree) fun a w' => w'.tree = w.tree ∧ good a

section Leaves

variable {s s' : Session α} {f : α → Session β} {left : α → Prop} {left' : β → Prop}

theorem Leaves.pure {a : α} (h : left a) :
  Leaves (pure a) w left
  := Ends.pure ⟨rfl, h⟩

theorem Leaves.throw (e : Trouble) (left : α → Prop) :
  Leaves (throw e) w left
  := Ends.throw rfl

theorem Leaves.bind (h : Leaves s w left)
    (hf : ∀ a w', w'.tree = w.tree → left a → Leaves (f a) w' left') :
  Leaves (s >>= f) w left'
  := by
  apply Ends.bind h
  rintro a w' ⟨htree, ha⟩
  have hrest := hf a w' htree ha
  rwa [Leaves, htree] at hrest

theorem Leaves.ite {c : Prop} [Decidable c] (h : Leaves s w left) (h' : Leaves s' w left) :
  Leaves (if c then s else s') w left
  := by
  split
  · exact h
  · exact h'

theorem leaves_print (text : String) :
  Leaves (print text) w fun _ => True
  := Ends.modify ⟨rfl, trivial⟩

theorem leaves_tell (text : String) :
  Leaves (tell text) w fun _ => True
  := Ends.modify ⟨rfl, trivial⟩

theorem leaves_tree :
  Leaves tree w fun t => t = w.tree
  := by
  constructor
  · rintro _ _ ⟨⟩
    exact ⟨rfl, rfl⟩
  · rintro _ _ ⟨⟩

theorem leaves_palette :
  Leaves palette w fun _ => True
  := by
  constructor
  · rintro _ _ ⟨⟩
    exact ⟨rfl, trivial⟩
  · rintro _ _ ⟨⟩

end Leaves

/-! ### Sessions that keep what holds of the file tree -/

/-- Whether something holds of the file tree when a session that starts in a world ends. -/
def Keeps (inv : FileTree → Prop) (s : Session α) (w : World) : Prop :=
  Ends s w (fun w => inv w.tree) fun _ w => inv w.tree

section Keeps

variable {inv : FileTree → Prop} {s : Session α} {f : α → Session β} {left : α → Prop}

theorem Keeps.pure {a : α} (hw : inv w.tree) :
  Keeps inv (pure a : Session α) w
  := Ends.pure hw

theorem Keeps.throw {e : Trouble} (hw : inv w.tree) :
  Keeps inv (throw e : Session α) w
  := Ends.throw hw

theorem Keeps.modify {f : World → World} (hw : inv (f w).tree) :
  Keeps inv (modify f) w
  := Ends.modify hw

theorem Keeps.bind (h : Keeps inv s w) (hf : ∀ a w', inv w'.tree → Keeps inv (f a) w') :
  Keeps inv (s >>= f) w
  := Ends.bind h hf

theorem Keeps.throw_bind {e : Trouble} (hw : inv w.tree) :
  Keeps inv (MonadExcept.throw e >>= f) w
  := by
  constructor
  · rintro _ _ ⟨⟩
  · rintro _ _ ⟨⟩
    exact hw

/-- What comes behind a session that leaves the file tree starts with the same. -/
theorem Leaves.keeps_bind (h : Leaves s w left) (hw : inv w.tree)
    (hf : ∀ a w', w'.tree = w.tree → left a → inv w'.tree → Keeps inv (f a) w') :
  Keeps inv (s >>= f) w
  := by
  have hleft (w' : World) (htree : w'.tree = w.tree) : inv w'.tree := by rwa [htree]
  apply (h.mono hleft fun _ _ ha => ha).bind
  rintro a w' ⟨htree, ha⟩
  exact hf a w' htree ha (hleft w' htree)

/-- What comes behind a session that runs under a condition starts with what that keeps. -/
theorem Keeps.when {c : Prop} [Decidable c] {s : Session PUnit} {rest : PUnit → Session β}
    (hw : inv w.tree) (hs : c → Keeps inv s w)
    (hrest : ∀ w', inv w'.tree → Keeps inv (rest ⟨⟩) w') :
  Keeps inv (if c then s >>= rest else rest ⟨⟩) w
  := by
  split
  · next hc =>
    apply (hs hc).bind
    intro _ w' hw'
    exact hrest w' hw'
  · exact hrest w hw

/-- A loop keeps what each of its steps keeps. -/
theorem Keeps.forIn {xs : List α} {body : α → PUnit → Session (ForInStep PUnit)}
    (hw : inv w.tree) (h : ∀ x ∈ xs, ∀ w, inv w.tree → Keeps inv (body x ⟨⟩) w) :
  Keeps inv (forIn xs PUnit.unit body) w
  := by
  induction xs generalizing w with
  | nil => exact Keeps.pure hw
  | cons x xs ih =>
      obtain ⟨hx, hxs⟩ := List.forall_mem_cons.mp h
      rw [List.forIn_cons]
      apply (hx w hw).bind
      intro step w' hw'
      cases step with
      | done => exact Keeps.pure hw'
      | yield => exact ih hw' hxs

end Keeps

end Session

/-! ### Opening and scanning -/

/-- The project that the settings name in a file tree. -/
def Settings.project? (s : Settings) (t : FileTree) : Option Project :=
  (Config.load t s.searchDirectory).toOption.bind fun loaded =>
    (Project.ofConfig loaded.config s).toOption

/-- A project with another output directory, if one is given. -/
def Project.withOutDir (p : Project) (outDir : Option String) : Project :=
  { p with config := { p.config with outDir := outDir.getD p.config.outDir } }

/-- The project that a build is about. -/
def Settings.buildProject? (s : Settings) (outDir : Option String) (t : FileTree) :
    Option Project :=
  (s.project? t).map (·.withOutDir outDir)

theorem Project.mem_of_mem_processed {p : Project} {t : FileTree} {files : List String}
    {x : String × Processed} (h : x ∈ (p.processFiles t files).processed) :
  x.1 ∈ files
  := by
  unfold processFiles at h
  simp only [List.mem_filterMap, List.mem_map] at h
  obtain ⟨_, ⟨file, hfile, rfl⟩, hx⟩ := h
  obtain ⟨processed, -, rfl⟩ := Option.map_eq_some_iff.mp hx
  exact hfile

namespace Session

variable {w : World}

theorem leaves_openProject (settings : Settings) :
  Leaves (openProject settings) w fun p => settings.project? w.tree = some p
  := by
  unfold openProject Settings.project?
  apply leaves_tree.bind
  rintro _ w' htree rfl
  cases Config.load w.tree settings.searchDirectory with
  | error e => exact Leaves.throw _ _
  | ok loaded =>
      dsimp only [Except.toOption, Option.bind_some]
      cases Project.ofConfig loaded.config settings with
      | error e =>
          apply Leaves.ite
          · apply (leaves_tell _).bind
            intro _ w' _ _
            exact Leaves.throw _ _
          · exact Leaves.throw _ _
      | ok project =>
          apply Leaves.ite
          · apply (leaves_tell _).bind
            intro _ w' _ _
            exact Leaves.pure rfl
          · exact Leaves.pure rfl

theorem leaves_scan (p : Project) (verbose : Bool) :
  Leaves (scan p verbose) w fun files => files = (p.scan w.tree).files
  := by
  unfold scan
  apply leaves_tree.bind
  rintro _ w' htree rfl
  apply leaves_palette.bind
  intro palette w' _ _
  have hskipped (w' : World) (text : String) : Leaves
      (if ((p.scan w.tree).skipped != 0) = true then do
        tell text
        return (p.scan w.tree).files
      else return (p.scan w.tree).files) w'
      fun files => files = (p.scan w.tree).files := by
    apply Leaves.ite
    · apply (leaves_tell _).bind
      intro _ w' _ _
      exact Leaves.pure rfl
    · exact Leaves.pure rfl
  apply Leaves.ite
  · apply (leaves_tell _).bind
    intro _ w' _ _
    exact hskipped w' _
  · exact hskipped w' _

theorem leaves_processAll (p : Project) (verbose : Bool) :
  Leaves (processAll p verbose) w
    fun run => run = p.processFiles w.tree (p.scan w.tree).files
  := by
  unfold processAll
  apply (leaves_scan p verbose).bind
  rintro _ w' htree rfl
  apply leaves_tree.bind
  rintro _ w'' _ rfl
  rw [htree]
  dsimp only
  cases ProjectRun.crash? (p.processFiles w.tree (p.scan w.tree).files) with
  | none => exact Leaves.pure rfl
  | some path => exact Leaves.throw _ _

theorem leaves_tellConditions (path : String) (processed : Processed) :
  Leaves (tellConditions path processed) w fun _ => True
  := by
  unfold tellConditions
  apply leaves_palette.bind
  intro palette w' _ _
  exact leaves_tell _

theorem leaves_tellFailures (verbose : Bool) (run : ProjectRun) :
  Leaves (tellFailures verbose run) w fun _ => True
  := by
  unfold tellFailures
  apply leaves_palette.bind
  intro palette w' _ _
  exact leaves_tell _

/-! ### Builds -/

/-- Writing the output for a file keeps what the making of directories and the writing of its
target keep. -/
theorem keeps_writeOutput {p : Project} {file : String} {processed : Processed}
    {inv : FileTree → Prop} (hw : inv w.tree)
    (hmake : ∀ t directory, inv t → inv (t.makeDirectories directory).1)
    (hwrite : ∀ t t', inv t → t.write (p.outputPath file) processed.output.code = .ok t' → inv t') :
  Keeps inv (writeOutput p file processed) w
  := by
  unfold writeOutput
  dsimp only
  split
  · apply leaves_tree.keeps_bind hw
    rintro _ w' - rfl hw'
    split
    · exact Keeps.throw hw'
    · next written hwritten => exact Keeps.modify (hwrite _ _ hw hwritten)
  · next directory _ =>
    apply leaves_tree.keeps_bind hw
    rintro _ w' - rfl -
    apply Keeps.bind (Keeps.modify (hmake _ directory hw))
    intro _ w' hw'
    split
    · exact Keeps.throw_bind hw'
    · apply leaves_tree.keeps_bind hw'
      rintro _ w'' - rfl hw''
      split
      · exact Keeps.throw hw''
      · next written hwritten => exact Keeps.modify (hwrite _ _ hw' hwritten)

/-- A build keeps what the writing of each scanned file keeps; without writing it keeps whatever
holds. -/
theorem keeps_build {settings : Settings} {apply : Bool} {outDir : Option String}
    {inv : FileTree → Prop} (hw : inv w.tree)
    (hwrite : apply = true → ∀ p, settings.buildProject? outDir w.tree = some p →
      ∀ file ∈ (p.scan w.tree).files, ∀ processed w', inv w'.tree →
        Keeps inv (writeOutput p file processed) w') :
  Keeps inv (build settings apply outDir) w
  := by
  unfold build
  apply (leaves_openProject settings).keeps_bind hw
  intro opened w₁ htree hopened hw₁
  have hp : settings.buildProject? outDir w.tree = some (opened.withOutDir outDir) := by
    rw [Settings.buildProject?, hopened]
    rfl
  apply (leaves_processAll (opened.withOutDir outDir) settings.verbose).keeps_bind hw₁
  rintro run w₂ - hrun hw₂
  rw [htree] at hrun
  have hscanned : ∀ x ∈ run.processed, x.1 ∈ ((opened.withOutDir outDir).scan w.tree).files := by
    intro x hx
    rw [hrun] at hx
    exact Project.mem_of_mem_processed hx
  have hfinish (w' : World) (hw' : inv w'.tree) (text : String) : Keeps inv (do
      tellFailures settings.verbose run
      print text
      return Status.ofFailures run.failures.length) w' := by
    apply (leaves_tellFailures settings.verbose run).keeps_bind hw'
    intro _ w' _ _ hw'
    apply (leaves_print text).keeps_bind hw'
    intro _ w' _ _ hw'
    exact Keeps.pure hw'
  apply Keeps.when hw₂
  · intro _
    apply Keeps.forIn hw₂
    rintro ⟨file, processed⟩ _ w' hw'
    apply (leaves_tellConditions _ processed).keeps_bind hw'
    intro _ w' _ _ hw'
    exact Keeps.pure hw'
  · intro w' hw'
    apply leaves_palette.keeps_bind hw'
    intro palette w' _ _ hw'
    split
    · next happly =>
      apply Keeps.bind
      · apply Keeps.forIn hw'
        rintro ⟨file, processed⟩ hmem w' hw'
        apply (hwrite happly _ hp file (hscanned _ hmem) processed w' hw').bind
        intro _ w' hw'
        exact Keeps.pure hw'
      · intro _ w' hw'
        exact hfinish w' hw' _
    · apply (leaves_print _).keeps_bind hw'
      intro _ w' _ _ hw'
      exact hfinish w' hw' _

end Session

end Prune
