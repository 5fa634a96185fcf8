import Mathlib.Data.List.DropRight
import Mathlib.Data.List.Infix
import Prune.FileTree

/-!
# Parts of paths

The parts of a path are its front, which says where it starts from (`Path.front`), and its steps
(`Path.steps`). A path that starts where another leads goes on with its steps (`Path.parts_join`),
what remains of a path behind another has the parts that remain (`Path.parts_of_rest?`), and a path
that is put together of parts has these parts (`Path.parts_ofParts`).
-/

namespace Prune.Path

/-! ### Pieces -/

section Pieces

variable {isSeparator : Char → Bool} {c : Char} {cs ds : List Char}

attribute [local simp] splitChars

theorem splitChars_ne_nil (isSeparator : Char → Bool) (cs : List Char) :
  splitChars isSeparator cs ≠ []
  := by
  cases cs with
  | nil => simp [splitChars]
  | cons c cs =>
      rw [splitChars]
      split
      · simp
      · split <;> simp

theorem splitChars_separator (hc : isSeparator c = true) :
  splitChars isSeparator (c :: cs) = [] :: splitChars isSeparator cs
  := by
  rw [splitChars]
  split
  · next h => exact absurd h (splitChars_ne_nil isSeparator cs)
  · next h => rw [if_pos hc, h]

theorem splitChars_cons (hc : isSeparator c = false) (cs : List Char) :
  ∃ piece pieces, splitChars isSeparator cs = piece :: pieces ∧
    splitChars isSeparator (c :: cs) = (c :: piece) :: pieces
  := by
  cases h : splitChars isSeparator cs with
  | nil => exact absurd h (splitChars_ne_nil isSeparator cs)
  | cons piece pieces =>
      use piece, pieces
      simp [splitChars, h, hc]

theorem splitChars_append (hc : isSeparator c = true) :
  splitChars isSeparator (cs ++ c :: ds)
    = splitChars isSeparator cs ++ splitChars isSeparator ds
  := by
  induction cs with
  | nil => rw [List.nil_append, splitChars_separator hc, splitChars, List.singleton_append]
  | cons d cs ih =>
      cases hd : isSeparator d with
      | true => rw [List.cons_append, splitChars_separator hd, splitChars_separator hd, ih,
          List.cons_append]
      | false =>
          obtain ⟨piece, pieces, h, hcons⟩ := splitChars_cons hd cs
          rw [hcons]
          rw [h] at ih
          simp [splitChars, ih, hd]

theorem splitChars_of_forall (h : ∀ c ∈ cs, isSeparator c = false) :
  splitChars isSeparator cs = [cs]
  := by
  induction cs with
  | nil => rfl
  | cons c cs ih =>
      obtain ⟨hc, hcs⟩ := List.forall_mem_cons.mp h
      simp [splitChars, ih hcs, hc]

theorem forall_of_mem_splitChars {piece : List Char} (h : piece ∈ splitChars isSeparator cs) :
  ∀ c ∈ piece, isSeparator c = false
  := by
  induction cs generalizing piece with
  | nil => simp_all [splitChars]
  | cons d cs ih =>
      cases hd : isSeparator d with
      | true =>
          rw [splitChars_separator hd, List.mem_cons] at h
          obtain rfl | h := h
          · exact List.forall_mem_nil _
          · exact ih h
      | false =>
          obtain ⟨first, pieces, hcs, hcons⟩ := splitChars_cons hd cs
          rw [hcons, List.mem_cons] at h
          obtain rfl | h := h
          · rw [List.forall_mem_cons]
            constructor
            · exact hd
            · apply ih
              rw [hcs]
              exact List.mem_cons_self
          · apply ih
            rw [hcs]
            exact List.mem_cons_of_mem _ h

/-- Pieces without separators are those of the text that they make up. -/
theorem splitChars_intercalate {pieces : List (List Char)} (hc : isSeparator c = true)
    (hpieces : ∀ piece ∈ pieces, ∀ d ∈ piece, isSeparator d = false) (hne : pieces ≠ []) :
  splitChars isSeparator (List.intercalate [c] pieces) = pieces
  := by
  induction pieces with
  | nil => contradiction
  | cons piece pieces ih =>
      obtain ⟨hpiece, hpieces⟩ := List.forall_mem_cons.mp hpieces
      cases pieces with
      | nil => simpa [List.intercalate] using splitChars_of_forall hpiece
      | cons next pieces =>
          rw [List.intercalate_cons_cons, List.append_assoc, List.singleton_append,
            splitChars_append hc, splitChars_of_forall hpiece, ih hpieces (List.cons_ne_nil _ _),
            List.singleton_append]

end Pieces

/-! ### Names -/

/-- Whether a text can stand for something in a directory. -/
def IsName (text : String) : Prop :=
  text ∉ ["", ".", ".."] ∧ '/' ∉ text.toList

instance (text : String) : Decidable (IsName text) :=
  inferInstanceAs (Decidable (_ ∧ _))

theorem ofPiece?_name {name : String} (h : IsName name) :
  ofPiece? name.toList = some (.name name)
  := by
  obtain ⟨hname, -⟩ := h
  have hne (text : String) (hmem : text ∈ ["", ".", ".."]) : name.toList ≠ text.toList := by
    intro heq
    rw [String.toList_injective heq] at hname
    contradiction
  have h₀ : name.toList ≠ [] := hne "" (by decide)
  have h₁ : name.toList ≠ ['.'] := hne "." (by decide)
  have h₂ : name.toList ≠ ['.', '.'] := hne ".." (by decide)
  simp [ofPiece?, h₀, h₁, h₂]

/-- A piece that counts is a step up or a name. -/
theorem eq_of_ofPiece? {piece : List Char} {part : Part} (h : ofPiece? piece = some part)
    (hslash : '/' ∉ piece) :
  part = .parent ∨ ∃ name, IsName name ∧ part = .name name
  := by
  unfold ofPiece? at h
  split at h
  · contradiction
  · next hidle =>
    split at h
    · exact .inl (Option.some.inj h).symm
    · next hparent =>
      right
      use String.ofList piece
      constructor
      · simp only [Bool.or_eq_true, beq_iff_eq, not_or] at hidle hparent
        constructor
        · simp only [List.mem_cons, List.not_mem_nil, or_false, not_or, ← String.toList_inj,
            String.toList_ofList]
          exact ⟨hidle.1, hidle.2, hparent⟩
        · rwa [String.toList_ofList]
      · exact (Option.some.inj h).symm

theorem ofPiece?_eq_none_iff {piece : List Char} :
  ofPiece? piece = none ↔ isIdle piece = true
  := by
  unfold ofPiece? isIdle
  split
  · simp_all
  · split <;> simp_all

/-! ### Fronts and steps -/

/-- What the text of a path says about where it starts from. -/
def frontOf : List Char → List Part
  | '/' :: _ => [.root]
  | cs => if (splitChars (· == '/') cs).head? == some ['.'] then [.current] else []

/-- The front of a path. -/
def front (path : String) : List Part :=
  frontOf path.toList

/-- The parts that the text of a path goes on with. -/
def stepsOf (cs : List Char) : List Part :=
  (splitChars (· == '/') cs).filterMap ofPiece?

/-- The parts of a path that lead from one place to another. -/
def steps (path : String) : List Part :=
  stepsOf path.toList

theorem frontOf_of_ne {cs : List Char} (h : ∀ ds, cs = '/' :: ds → False) :
  frontOf cs = if (splitChars (· == '/') cs).head? == some ['.'] then [.current] else []
  := by
  unfold frontOf
  split
  · next ds => exact (h ds rfl).elim
  · rfl

theorem parts_eq (path : String) :
  parts path = front path ++ steps path
  := by
  unfold parts front steps stepsOf
  simp only
  split
  · next hslash =>
    rw [hslash]
    rfl
  · next hslash =>
    rw [frontOf_of_ne hslash]
    split <;> rfl

theorem stepsOf_append (cs ds : List Char) :
  stepsOf (cs ++ '/' :: ds) = stepsOf cs ++ stepsOf ds
  := by
  rw [stepsOf, splitChars_append (by rfl), List.filterMap_append]
  rfl

/-- A slash behind a text ends its front. -/
theorem frontOf_append (cs ds : List Char) :
  frontOf (cs ++ '/' :: ds) = if cs = [] then [.root] else frontOf cs
  := by
  cases cs with
  | nil => rfl
  | cons c cs =>
      rw [if_neg (List.cons_ne_nil c cs)]
      by_cases hc : c = '/'
      · rw [hc]
        rfl
      · have hne (es fs : List Char) (h : c :: es = '/' :: fs) : False := hc (List.cons.inj h).1
        rw [List.cons_append, frontOf_of_ne (hne _), frontOf_of_ne (hne _), ← List.cons_append,
          splitChars_append (by rfl), List.head?_append_of_ne_nil _ (splitChars_ne_nil _ _)]

theorem isStep_of_mem_steps {path : String} {part : Part} (h : part ∈ steps path) :
  part = .parent ∨ ∃ name, IsName name ∧ part = .name name
  := by
  obtain ⟨piece, hpiece, hpart⟩ := List.mem_filterMap.mp h
  apply eq_of_ofPiece? hpart
  intro hslash
  have := forall_of_mem_splitChars hpiece '/' hslash
  contradiction

theorem front_cases (path : String) :
  front path = [] ∨ front path = [.current] ∨ front path = [.root]
  := by
  unfold front frontOf
  split
  · simp
  · split <;> simp

theorem isAbsolute_iff {path : String} :
  isAbsolute path = true ↔ ∃ cs, path.toList = '/' :: cs
  := by
  rw [isAbsolute, beq_iff_eq, List.head?_eq_some_iff]

/-- A path is absolute if and only if its front is the root. -/
theorem isAbsolute_iff_front {path : String} :
  isAbsolute path = true ↔ front path = [.root]
  := by
  rw [isAbsolute_iff]
  unfold front frontOf
  split
  · next cs hcs =>
    constructor
    · intro
      rfl
    · intro
      exact ⟨cs, hcs⟩
  · next hnot =>
    constructor
    · rintro ⟨cs, hcs⟩
      exact (hnot cs hcs).elim
    · split <;> simp

theorem parts_ne_nil {path : String} (h : path ≠ "") :
  parts path ≠ []
  := by
  unfold parts
  simp only
  split
  · exact List.cons_ne_nil _ _
  · next hslash =>
    cases hcs : path.toList with
    | nil => exact absurd (String.toList_eq_nil_iff.mp hcs) h
    | cons c cs =>
        have hc : (c == '/') = false := by
          rw [beq_eq_false_iff_ne]
          rintro rfl
          exact hslash cs hcs
        obtain ⟨piece, pieces, -, hsplit⟩ := @splitChars_cons (· == '/') c hc cs
        rw [hsplit, List.head?_cons]
        split
        · exact List.cons_ne_nil _ _
        · next hpoint =>
          have hcounts : ofPiece? (c :: piece) ≠ none := by
            rw [ne_eq, ofPiece?_eq_none_iff]
            simpa [isIdle] using hpoint
          obtain ⟨part, hpart⟩ := Option.ne_none_iff_exists'.mp hcounts
          rw [List.filterMap_cons_some hpart]
          exact List.cons_ne_nil _ _

/-- Behind some parts of a path there are steps. -/
theorem isStep_of_mem_behind {path : String} {before behind : List Part} {part : Part}
    (h : parts path = before ++ behind) (hne : before ≠ []) (hpart : part ∈ behind) :
  part = .parent ∨ ∃ name, IsName name ∧ part = .name name
  := by
  suffices hmem : part ∈ steps path from isStep_of_mem_steps hmem
  obtain ⟨first, before, rfl⟩ := List.exists_cons_of_ne_nil hne
  rw [parts_eq, List.cons_append] at h
  obtain hfront | hfront | hfront := front_cases path
  · rw [hfront, List.nil_append] at h
    rw [h]
    exact List.mem_cons_of_mem _ (List.mem_append_right _ hpart)
  all_goals
    rw [hfront, List.singleton_append] at h
    rw [(List.cons.inj h).2]
    exact List.mem_append_right _ hpart

/-! ### Joining -/

theorem join_empty (path : String) :
  join "" path = path
  := by
  simp [join]

theorem join_absolute {path : String} (h : isAbsolute path = true) (base : String) :
  join base path = path
  := by
  simp [join, h]

/-- A path that starts where another leads stands behind it and a slash. -/
theorem toList_join {base path : String} (hbase : base ≠ "") (hpath : isAbsolute path = false) :
  ∃ cs, (join base path).toList = cs ++ '/' :: path.toList ∧
    (base.toList = cs ∨ base.toList = cs ++ ['/'])
  := by
  have hempty : base.isEmpty = false := by simpa [String.isEmpty_iff] using hbase
  unfold join
  rw [hpath, hempty, Bool.false_or, if_neg Bool.false_ne_true]
  split
  · next hlast =>
    obtain ⟨cs, hcs⟩ := List.getLast?_eq_some_iff.mp (beq_iff_eq.mp hlast)
    use cs
    constructor
    · simp [String.toList_append, hcs]
    · exact .inr hcs
  · use base.toList
    constructor
    · simp [String.toList_append]
    · exact .inl rfl

theorem front_join {path : String} (hpath : isAbsolute path = false) {base : String}
    (hbase : base ≠ "") :
  front (join base path) = front base
  := by
  obtain ⟨cs, hjoin, hcs⟩ := toList_join hbase hpath
  rw [front, front, hjoin, frontOf_append]
  obtain hcs | hcs := hcs
  · have hne : cs ≠ [] := by
      rintro rfl
      exact hbase (String.toList_injective hcs)
    rw [hcs, if_neg hne]
  · rw [hcs, frontOf_append]

theorem isAbsolute_join {path : String} (hpath : isAbsolute path = false) (base : String) :
  isAbsolute (join base path) = isAbsolute base
  := by
  by_cases hbase : base = ""
  · rw [hbase, join_empty, hpath]
    rfl
  · rw [Bool.eq_iff_iff, isAbsolute_iff_front, isAbsolute_iff_front, front_join hpath hbase]

theorem steps_join {path : String} (hpath : isAbsolute path = false) (base : String) :
  steps (join base path) = steps base ++ steps path
  := by
  by_cases hbase : base = ""
  · rw [hbase, join_empty]
    rfl
  · obtain ⟨cs, hjoin, hcs⟩ := toList_join hbase hpath
    rw [steps, steps, hjoin, stepsOf_append]
    obtain hcs | hcs := hcs
    · rw [hcs]
      rfl
    · rw [hcs, stepsOf_append]
      exact congrArg (· ++ _) (List.append_nil _).symm

/-- A path goes on with the steps of one that starts where it leads. -/
theorem parts_join {base path : String} (hbase : base ≠ "") (hpath : isAbsolute path = false) :
  parts (join base path) = parts base ++ steps path
  := by
  rw [parts_eq, parts_eq, front_join hpath hbase, steps_join hpath, List.append_assoc]

/-! ### Putting paths together -/

/-- Pieces that start with one that counts make up a path without a front. -/
theorem front_ofPieces {pieces : List (List Char)} (hslash : ∀ piece ∈ pieces, '/' ∉ piece)
    (hhead : ∀ piece ∈ pieces.head?, isIdle piece = false) :
  front (ofPieces pieces) = []
  := by
  cases pieces with
  | nil => rfl
  | cons piece pieces =>
      have hsplit : splitChars (· == '/') (List.intercalate ['/'] (piece :: pieces))
          = piece :: pieces := by
        apply splitChars_intercalate (by rfl) _ (List.cons_ne_nil _ _)
        intro piece hpiece c hc
        rw [beq_eq_false_iff_ne]
        rintro rfl
        exact hslash piece hpiece hc
      have hidle : isIdle piece = false := hhead piece rfl
      unfold isIdle at hidle
      simp only [Bool.or_eq_false_iff, beq_eq_false_iff_ne] at hidle
      rw [front, ofPieces, String.toList_ofList, frontOf_of_ne]
      · simp [hsplit, hidle.2]
      · intro ds hds
        rw [hds, splitChars_separator (by rfl)] at hsplit
        exact hidle.1 (List.cons.inj hsplit).1.symm

theorem steps_ofPieces {pieces : List (List Char)} (hslash : ∀ piece ∈ pieces, '/' ∉ piece) :
  steps (ofPieces pieces) = pieces.filterMap ofPiece?
  := by
  cases pieces with
  | nil => rfl
  | cons piece pieces =>
      rw [steps, stepsOf, ofPieces, String.toList_ofList,
        splitChars_intercalate (by rfl) _ (List.cons_ne_nil _ _)]
      intro piece hpiece c hc
      rw [beq_eq_false_iff_ne]
      rintro rfl
      exact hslash piece hpiece hc

/-- Whether a part leads from one place to another. -/
def Part.IsStep (part : Part) : Prop :=
  part = .parent ∨ ∃ name, IsName name ∧ part = .name name

theorem Part.IsStep.ofPiece?_text {part : Part} (h : part.IsStep) :
  ofPiece? part.text.toList = some part
  := by
  obtain rfl | ⟨name, hname, rfl⟩ := h
  · rfl
  · exact ofPiece?_name hname

theorem Part.IsStep.slash_not_mem {part : Part} (h : part.IsStep) :
  '/' ∉ part.text.toList
  := by
  obtain rfl | ⟨name, hname, rfl⟩ := h
  · decide
  · exact hname.2

/-- The text of parts with slashes between them. -/
def written (parts : List Part) : String :=
  String.intercalate "/" (parts.map Part.text)

theorem written_eq (parts : List Part) :
  written parts = ofPieces (parts.map fun part => part.text.toList)
  := by
  simp [written, ofPieces, ← String.toList_inj, String.toList_intercalate, Function.comp_def]

section Written

variable {parts : List Part}

theorem slash_not_mem_of_forall (h : ∀ part ∈ parts, part.IsStep) :
  ∀ piece ∈ parts.map (fun part => part.text.toList), '/' ∉ piece
  := by
  intro piece hpiece
  obtain ⟨part, hpart, rfl⟩ := List.mem_map.mp hpiece
  exact (h part hpart).slash_not_mem

theorem front_written (h : ∀ part ∈ parts, part.IsStep) :
  front (written parts) = []
  := by
  rw [written_eq]
  apply front_ofPieces (slash_not_mem_of_forall h)
  intro piece hpiece
  obtain ⟨part, hpart, rfl⟩ := List.mem_map.mp (List.mem_of_mem_head? hpiece)
  rw [← Bool.not_eq_true, ← ofPiece?_eq_none_iff, (h part hpart).ofPiece?_text]
  exact Option.some_ne_none part

theorem steps_written (h : ∀ part ∈ parts, part.IsStep) :
  steps (written parts) = parts
  := by
  rw [written_eq, steps_ofPieces (slash_not_mem_of_forall h), List.filterMap_map]
  calc
    parts.filterMap (ofPiece? ∘ fun part => part.text.toList) = parts.filterMap some :=
      List.filterMap_congr fun part hpart => (h part hpart).ofPiece?_text
    _ = parts := List.filterMap_some

end Written

theorem filter_of_isStep {parts : List Part} (h : ∀ part ∈ parts, part.IsStep) :
  parts.filter (· != .current) = parts
  := by
  rw [List.filter_eq_self]
  intro part hpart
  obtain rfl | ⟨name, -, rfl⟩ := h part hpart
  · rfl
  · rfl

theorem filter_steps (path : String) :
  (steps path).filter (· != .current) = steps path
  := filter_of_isStep fun _ => isStep_of_mem_steps

theorem parts_slash (text : String) :
  parts ("/" ++ text) = .root :: steps text
  := by
  have htext : ("/" ++ text).toList = [] ++ '/' :: text.toList := by simp [String.toList_append]
  rw [parts_eq, front, steps, htext, stepsOf_append, frontOf_append]
  rfl

/-- Steps make up a path with these steps and without a front. -/
theorem parts_ofParts_steps (path : String) :
  parts (ofParts (steps path)) = steps path
  := by
  have hsteps : ∀ part ∈ steps path, part.IsStep := fun part => isStep_of_mem_steps
  have hwritten : ofParts (steps path) = written (steps path) := by
    unfold ofParts
    split
    · next rest hrest =>
      obtain h | ⟨name, -, h⟩ := hsteps .root (by simp [hrest])
      all_goals contradiction
    · rfl
  rw [hwritten, parts_eq, front_written hsteps, steps_written hsteps, List.nil_append]

/-- The parts of a path, without the point in front, make up a path with these parts. -/
theorem parts_ofParts (path : String) :
  parts (ofParts ((parts path).filter (· != .current))) = (parts path).filter (· != .current)
  := by
  have hsteps : ∀ part ∈ steps path, part.IsStep := fun part => isStep_of_mem_steps
  rw [parts_eq path, List.filter_append, filter_steps]
  obtain hfront | hfront | hfront := front_cases path
  · rw [hfront]
    exact parts_ofParts_steps path
  · rw [hfront]
    exact parts_ofParts_steps path
  · rw [hfront]
    change parts ("/" ++ written (steps path)) = .root :: steps path
    rw [parts_slash, steps_written hsteps]

/-! ### What remains of a path -/

theorem filterMap_dropParts (n : Nat) (pieces : List (List Char)) :
  (dropParts n pieces).filterMap ofPiece? = (pieces.filterMap ofPiece?).drop n
  := by
  induction pieces generalizing n with
  | nil => cases n <;> simp [dropParts]
  | cons piece pieces ih =>
      cases n with
      | zero => rfl
      | succ n =>
          rw [dropParts]
          split
          · next hidle => rw [ih, List.filterMap_cons_none (ofPiece?_eq_none_iff.mpr hidle)]
          · next hidle =>
            rw [← ofPiece?_eq_none_iff, ← ne_eq, Option.ne_none_iff_exists'] at hidle
            obtain ⟨part, hpart⟩ := hidle
            rw [ih, List.filterMap_cons_some hpart, List.drop_succ_cons]

/-- What remains of pieces when those that do not count are left out at both ends. -/
def trimmed (pieces : List (List Char)) : List (List Char) :=
  (pieces.dropWhile isIdle).rdropWhile isIdle

theorem filterMap_dropWhile (pieces : List (List Char)) :
  (pieces.dropWhile isIdle).filterMap ofPiece? = pieces.filterMap ofPiece?
  := by
  induction pieces with
  | nil => rfl
  | cons piece pieces ih =>
      rw [List.dropWhile_cons]
      split
      · next hidle => rw [ih, List.filterMap_cons_none (ofPiece?_eq_none_iff.mpr hidle)]
      · rfl

theorem filterMap_trimmed (pieces : List (List Char)) :
  (trimmed pieces).filterMap ofPiece? = pieces.filterMap ofPiece?
  := by
  rw [trimmed, List.rdropWhile, List.filterMap_reverse, filterMap_dropWhile, List.filterMap_reverse,
    List.reverse_reverse, filterMap_dropWhile]

theorem mem_of_mem_trimmed {pieces : List (List Char)} {piece : List Char}
    (h : piece ∈ trimmed pieces) :
  piece ∈ pieces
  := by
  have hfirst := List.rdropWhile_prefix isIdle (pieces.dropWhile isIdle)
  exact (List.dropWhile_suffix isIdle).subset (hfirst.subset h)

theorem isIdle_head_trimmed {pieces : List (List Char)} {piece : List Char}
    (h : piece ∈ (trimmed pieces).head?) :
  isIdle piece = false
  := by
  obtain ⟨rest, hrest⟩ := List.rdropWhile_prefix isIdle (pieces.dropWhile isIdle)
  have hhead : (pieces.dropWhile isIdle).head? = some piece := by
    rw [← hrest, List.head?_append]
    change (trimmed pieces).head?.or _ = _
    rw [Option.mem_def.mp h]
    rfl
  have hnot := List.head?_dropWhile_not isIdle pieces
  rw [hhead] at hnot
  simpa using hnot

theorem parts_ofPieces_trimmed {pieces : List (List Char)}
    (hslash : ∀ piece ∈ pieces, '/' ∉ piece) :
  parts (ofPieces (trimmed pieces)) = pieces.filterMap ofPiece?
  := by
  have htrimmed : ∀ piece ∈ trimmed pieces, '/' ∉ piece :=
    fun piece hpiece => hslash piece (mem_of_mem_trimmed hpiece)
  rw [parts_eq, front_ofPieces htrimmed fun piece => isIdle_head_trimmed, steps_ofPieces htrimmed,
    filterMap_trimmed, List.nil_append]

theorem mem_of_mem_dropParts {n : Nat} {pieces : List (List Char)} {piece : List Char}
    (h : piece ∈ dropParts n pieces) :
  piece ∈ pieces
  := by
  induction pieces generalizing n with
  | nil => cases n <;> simp_all [dropParts]
  | cons first pieces ih =>
      cases n with
      | zero => exact h
      | succ n =>
          rw [dropParts] at h
          split at h
          · exact List.mem_cons_of_mem _ (ih h)
          · exact List.mem_cons_of_mem _ (ih h)

/-- A piece that makes up a front does not count as a step. -/
theorem filterMap_tail_of_front {path : String} (h : front path ≠ []) :
  (splitChars (· == '/') path.toList).tail.filterMap ofPiece? = steps path
  := by
  have hidle : ∀ piece ∈ (splitChars (· == '/') path.toList).head?, ofPiece? piece = none := by
    unfold front frontOf at h
    split at h
    · next hslash =>
      rw [hslash, splitChars_separator (by rfl)]
      intro piece hpiece
      rw [← Option.some.inj hpiece]
      rfl
    · split at h
      · next hhead =>
        rw [beq_iff_eq.mp hhead]
        intro piece hpiece
        rw [← Option.some.inj hpiece]
        rfl
      · contradiction
  unfold steps stepsOf
  cases hsplit : splitChars (· == '/') path.toList with
  | nil => rfl
  | cons piece pieces =>
      rw [hsplit] at hidle
      rw [List.filterMap_cons_none (hidle piece rfl), List.tail_cons]

/-- The pieces of a path behind its first parts have the parts that are left. -/
theorem filterMap_behind {path : String} {part : Part} {more others : List Part}
    (h : parts path = part :: more ++ others) :
  (match part with
    | .root | .current => dropParts more.length (splitChars (· == '/') path.toList).tail
    | _ => dropParts (more.length + 1) (splitChars (· == '/') path.toList)).filterMap ofPiece?
    = others
  := by
  rw [parts_eq, List.cons_append] at h
  by_cases hfront : front path = []
  · rw [hfront, List.nil_append] at h
    have hmem : part ∈ steps path := by
      rw [h]
      exact List.mem_cons_self
    have hstep : part.IsStep := isStep_of_mem_steps hmem
    have hbehind : (dropParts (more.length + 1) (splitChars (· == '/') path.toList)).filterMap
        ofPiece? = others := by
      rw [filterMap_dropParts]
      change (steps path).drop _ = _
      rw [h, List.drop_succ_cons, List.drop_left]
    obtain rfl | ⟨name, -, rfl⟩ := hstep
    · exact hbehind
    · exact hbehind
  · have hbehind : (dropParts more.length (splitChars (· == '/') path.toList).tail).filterMap
        ofPiece? = (steps path).drop more.length := by
      rw [filterMap_dropParts, filterMap_tail_of_front hfront]
    obtain hnone | hcurrent | hroot := front_cases path
    · contradiction
    · rw [hcurrent] at h
      obtain ⟨rfl, hsteps⟩ := List.cons.inj h
      change steps path = _ at hsteps
      rw [hsteps, List.drop_left] at hbehind
      exact hbehind
    · rw [hroot] at h
      obtain ⟨rfl, hsteps⟩ := List.cons.inj h
      change steps path = _ at hsteps
      rw [hsteps, List.drop_left] at hbehind
      exact hbehind

/-- What remains of a path behind another has the parts that remain. -/
theorem parts_of_rest? {path base rest : String} (h : rest? path base = some rest) :
  parts path = parts base ++ parts rest
  := by
  unfold rest? at h
  split at h
  · next hfirst =>
    obtain ⟨others, hothers⟩ := List.isPrefixOf_iff_prefix.mp hfirst
    have hpieces : ∀ piece ∈ splitChars (· == '/') path.toList, '/' ∉ piece := by
      intro piece hpiece hslash
      have := forall_of_mem_splitChars hpiece '/' hslash
      contradiction
    simp only at h
    split at h
    · next hbase =>
      rw [hbase, Option.some.inj h]
      rfl
    · next part more hbase =>
      rw [hbase] at hothers
      rw [← Option.some.inj h, ← hothers, hbase]
      congr 1
      change others = parts (ofPieces (trimmed _))
      rw [parts_ofPieces_trimmed]
      · exact (filterMap_behind hothers.symm).symm
      · intro piece hpiece
        split at hpiece
        · exact hpieces piece (List.mem_of_mem_tail (mem_of_mem_dropParts hpiece))
        · exact hpieces piece (List.mem_of_mem_tail (mem_of_mem_dropParts hpiece))
        · exact hpieces piece (mem_of_mem_dropParts hpiece)
  · contradiction

theorem isUnder_iff {path base : String} :
  isUnder path base = true ↔ parts base <+: parts path
  := List.isPrefixOf_iff_prefix

theorem isSome_rest? (path base : String) :
  (rest? path base).isSome = isUnder path base
  := by
  unfold rest? isUnder
  split
  · next h =>
    simp only
    split <;> simp [h]
  · next h => simp [h]

end Prune.Path
