import Mathlib
import Prune.Text.Blank
import Prune.Text.Case

/-!
# The lower-case forms of texts

The lower-case form of a text is put together from those of its characters (`lowerAt`), of which
that of a capital sigma alone depends on its neighbours.  The form of a character is never empty,
and what stands in it is the character itself, or else no capital of ASCII, no sign that comes
before these, and no blank (`eq_of_mem_lowerAt`), and has no form of its own
(`lowerChar_of_mem_lowerAt`).  So the form of a text is its own form (`lower_lower`), has no capitals
of ASCII (`map_toLower_lowerFrom`), and the same blanks as the text (`mem_lowerFrom_iff_of_isBlank`).

Lower-case forms go beyond ASCII.  Only a text that has no character above ASCII with a form of its
own (`IsLowerAboveAscii`) differs from its form at most in the case of the letters of ASCII
(`map_toLower_eq_lowerFrom_iff`).
-/

namespace Prune.Text

variable {c d : Char} {cs before : List Char}

/-! ### Capitals and blanks -/

theorem isUpper_iff :
  c.isUpper = true ↔ 0x41 ≤ c.toNat ∧ c.toNat ≤ 0x5A
  := by
  simp [Char.isUpper, UInt32.le_iff_toNat_le]

theorem toNat_toLower (h : c.isUpper = true) :
  c.toLower.toNat = c.toNat + 0x20
  := by
  rw [Char.toLower_eq_of_isUpper h, Char.toNat_ofNat, if_pos]
  have := isUpper_iff.mp h
  rw [Nat.isValidChar]
  omega

/-- The code points of blanks, in runs. -/
def blankRuns : List (Nat × Nat) :=
  [(9, 13), (0x20, 0x20), (0x85, 0x85), (0xA0, 0xA0), (0x1680, 0x1680), (0x2000, 0x200A),
    (0x2028, 0x2029), (0x202F, 0x202F), (0x205F, 0x205F), (0x3000, 0x3000)]

theorem isBlank_iff :
  isBlank c = true ↔ ∃ run ∈ blankRuns, run.1 ≤ c.toNat ∧ c.toNat ≤ run.2
  := by
  simp only [isBlank, blankRuns, Bool.or_eq_true, Bool.and_eq_true, decide_eq_true_eq, beq_iff_eq,
    List.mem_cons, List.not_mem_nil, or_false, exists_eq_or_imp, exists_eq_left]
  omega

/-! ### The forms of characters -/

/-- The code points of what stands in the lower-case forms of characters above ASCII that have one
of their own: the first and the last of each run, and the step between two. -/
def lowerRuns : List (Nat × Nat × Nat) :=
  Shifts.lower.toList.map (fun (first, last, step, shift) =>
      ((first + shift).toNat, (last + shift).toNat, step))
    ++ lowerExpansions.toList.flatMap fun (_, images) => images.map fun n => (n, n, 1)

/-- A character above ASCII has itself for its form, or characters from the runs. -/
theorem mem_lowerChar (hc : 0x80 ≤ c.toNat) (h : d ∈ lowerChar c) :
  d = c ∧ lowerChar c = [c] ∨
    ∃ run ∈ lowerRuns, ∃ n, run.1 ≤ n ∧ n ≤ run.2.1 ∧ (n - run.1) % run.2.2 = 0 ∧ d = Char.ofNat n
  := by
  have hshifts : ∀ run ∈ Shifts.lower.toList, 0 ≤ run.1 + run.2.2.2 := by decide +kernel
  rw [lowerChar, if_neg (Nat.not_lt.mpr hc), mapCase] at h ⊢
  split at h
  · next images hfind =>
    obtain ⟨n, hn, rfl⟩ := List.mem_map.mp h
    right
    use (n, n, 1)
    constructor
    · apply List.mem_append_right
      apply List.mem_flatMap.mpr
      exact ⟨_, Array.mem_toList_iff.mpr (Array.mem_of_find?_eq_some hfind),
        List.mem_map_of_mem hn⟩
    · exact ⟨n, Nat.le_refl n, Nat.le_refl n, Nat.mod_one _, rfl⟩
  · split at h
    · next image happly =>
      obtain ⟨⟨first, last, step, shift⟩, hfind, rfl⟩ := Option.map_eq_some_iff.mp happly
      have hmem := Array.mem_toList_iff.mpr (Array.mem_of_find?_eq_some hfind)
      have hshift : 0 ≤ first + shift := hshifts _ hmem
      have hrun := Array.find?_some hfind
      simp only [Bool.and_eq_true, decide_eq_true_eq, beq_iff_eq] at hrun
      obtain ⟨⟨hfirst, hlast⟩, hstep⟩ := hrun
      right
      use ((first + shift).toNat, (last + shift).toNat, step)
      constructor
      · apply List.mem_append_left
        exact List.mem_map.mpr ⟨_, hmem, rfl⟩
      · use (Int.ofNat c.toNat + shift).toNat
        have hsub : (Int.ofNat c.toNat + shift).toNat - (first + shift).toNat
            = c.toNat - first := by
          simp only [Int.ofNat_eq_natCast]
          omega
        rw [hsub]
        simp only [Int.ofNat_eq_natCast]
        refine ⟨?_, ?_, hstep, List.mem_singleton.mp h⟩
        · omega
        · omega
    · exact .inl ⟨List.mem_singleton.mp h, rfl⟩

/-- In the runs there are no capitals of ASCII, no signs before these, and no blanks. -/
theorem lowerRuns_spec :
  ∀ run ∈ lowerRuns,
    0x61 ≤ run.1 ∧ (run.2.1 < 0xD800 ∨ 0xE000 ≤ run.1 ∧ run.2.1 < 0x110000) ∧
      ∀ blanks ∈ blankRuns, run.2.1 < blanks.1 ∨ blanks.2 < run.1
  := by
  decide +kernel

/-- Whether no character of a run, given with its step, is one of those that are shifted.  Where
capital and small letters take turns, it is their parity that keeps them apart. -/
def isApart (run : Nat × Nat × Nat) (shifted : Nat × Nat × Nat × Int) : Bool :=
  Nat.blt run.2.1 shifted.1 || Nat.blt shifted.2.1 run.1
    || (shifted.2.2.1 == 2 && (run.2.2 == 2 || run.1 == run.2.1) && run.1 % 2 != shifted.1 % 2)

theorem isApart_iff {run : Nat × Nat × Nat} {shifted : Nat × Nat × Nat × Int} :
  isApart run shifted = true ↔
    run.2.1 < shifted.1 ∨ shifted.2.1 < run.1 ∨
      shifted.2.2.1 = 2 ∧ (run.2.2 = 2 ∨ run.1 = run.2.1) ∧ run.1 % 2 ≠ shifted.1 % 2
  := by
  simp only [isApart, Bool.or_eq_true, Bool.and_eq_true, Nat.blt_eq, beq_iff_eq, bne_iff_ne,
    or_assoc, and_assoc]

/-- In the runs there are no characters above ASCII that have a form of their own. -/
theorem lowerRuns_isApart :
  (lowerRuns.all fun run => Shifts.lower.toList.all (isApart run)) = true
  := by
  decide +kernel

theorem lowerRuns_ne_expansion :
  ∀ run ∈ lowerRuns, ∀ e ∈ lowerExpansions.toList, run.2.1 < e.1 ∨ e.1 < run.1
  := by
  decide +kernel

theorem lowerChar_ne_nil (c : Char) :
  lowerChar c ≠ []
  := by
  have hexpansions : ∀ e ∈ lowerExpansions.toList, e.2 ≠ [] := by decide
  rw [lowerChar]
  split
  · exact List.cons_ne_nil _ _
  · rw [mapCase]
    split
    · next hfind =>
      rw [ne_eq, List.map_eq_nil_iff]
      exact hexpansions _ (Array.mem_toList_iff.mpr (Array.mem_of_find?_eq_some hfind))
    · split
      · exact List.cons_ne_nil _ _
      · exact List.cons_ne_nil _ _

/-- Blanks have no forms of their own. -/
theorem lowerChar_of_isBlank (h : isBlank c = true) :
  lowerChar c = [c]
  := by
  have hexpansions : ∀ e ∈ lowerExpansions.toList, ∀ blanks ∈ blankRuns,
      e.1 < blanks.1 ∨ blanks.2 < e.1 := by
    decide
  have hshifts : ∀ run ∈ Shifts.lower.toList, ∀ blanks ∈ blankRuns,
      run.2.1 < blanks.1 ∨ blanks.2 < run.1 := by
    decide +kernel
  obtain ⟨blanks, hmem, hlow, hhigh⟩ := isBlank_iff.mp h
  rw [lowerChar]
  split
  · have hupper : ¬c.isUpper = true := by
      have hblanks : ∀ blanks ∈ blankRuns, blanks.2 < 0x41 ∨ 0x5A < blanks.1 := by decide
      have := hblanks blanks hmem
      rw [isUpper_iff]
      omega
    rw [Char.toLower_eq_of_not_isUpper hupper]
  · rw [mapCase]
    split
    · next hfind =>
      have hout := hexpansions _ (Array.mem_toList_iff.mpr (Array.mem_of_find?_eq_some hfind))
        blanks hmem
      have hin := Array.find?_some hfind
      rw [beq_iff_eq] at hin
      omega
    · split
      · next happly =>
        obtain ⟨⟨first, last, step, shift⟩, hfind, -⟩ := Option.map_eq_some_iff.mp happly
        have hout := hshifts _ (Array.mem_toList_iff.mpr (Array.mem_of_find?_eq_some hfind))
          blanks hmem
        have hin := Array.find?_some hfind
        simp only [Bool.and_eq_true, decide_eq_true_eq] at hout hin
        omega
      · rfl

/-- The characters from the runs have no forms of their own. -/
theorem lowerChar_of_mem_lowerRuns {run : Nat × Nat × Nat} (hrun : run ∈ lowerRuns) {n : Nat}
    (hfirst : run.1 ≤ n) (hlast : n ≤ run.2.1) (hstep : (n - run.1) % run.2.2 = 0) :
  lowerChar (Char.ofNat n) = [Char.ofNat n]
  := by
  obtain ⟨hsmall, hvalid, -⟩ := lowerRuns_spec run hrun
  have hexpansions := lowerRuns_ne_expansion run hrun
  have hshifts := List.all_eq_true.mp (List.all_eq_true.mp lowerRuns_isApart run hrun)
  have hnat : (Char.ofNat n).toNat = n := by
    rw [Char.toNat_ofNat, if_pos]
    rw [Nat.isValidChar]
    omega
  rw [lowerChar, mapCase, hnat]
  split
  · have hupper : ¬(Char.ofNat n).isUpper = true := by
      rw [isUpper_iff, hnat]
      omega
    rw [Char.toLower_eq_of_not_isUpper hupper]
  · split
    · next hfind =>
      have hout := hexpansions _ (Array.mem_toList_iff.mpr (Array.mem_of_find?_eq_some hfind))
      have hin := Array.find?_some hfind
      rw [beq_iff_eq] at hin
      omega
    · split
      · next happly =>
        obtain ⟨⟨first, last, step, shift⟩, hfind, -⟩ := Option.map_eq_some_iff.mp happly
        have hout := hshifts _ (Array.mem_toList_iff.mpr (Array.mem_of_find?_eq_some hfind))
        have hin := Array.find?_some hfind
        simp only [isApart_iff, Bool.and_eq_true, decide_eq_true_eq, beq_iff_eq] at hout hin
        obtain hout | hout | ⟨rfl, hrunStep, hparity⟩ := hout
        · omega
        · omega
        · obtain hrunStep | hrunStep := hrunStep
          · rw [hrunStep] at hstep
            omega
          · omega
      · rfl

/-- What stands in the form of a character has no form of its own. -/
theorem lowerChar_of_mem_lowerChar (h : d ∈ lowerChar c) :
  lowerChar d = [d]
  := by
  by_cases hc : c.toNat < 0x80
  · rw [lowerChar, if_pos hc, List.mem_singleton] at h
    have hd : d.toNat < 0x80 := by
      by_cases hupper : c.isUpper = true
      · have := toNat_toLower hupper
        have := isUpper_iff.mp hupper
        rw [h]
        omega
      · rwa [h, Char.toLower_eq_of_not_isUpper hupper]
    rw [lowerChar, if_pos hd, h, Char.toLower_toLower_eq_toLower]
  · obtain ⟨rfl, hform⟩ | ⟨run, hrun, n, hfirst, hlast, hstep, rfl⟩ :=
      mem_lowerChar (Nat.not_lt.mp hc) h
    · exact hform
    · exact lowerChar_of_mem_lowerRuns hrun hfirst hlast hstep

/-! ### The forms of characters in a text -/

/-- The lower-case form of a character that stands between others. -/
def lowerAt (before : List Char) (c : Char) (cs : List Char) : List Char :=
  if c.toNat == 0x3A3 then
    if meetsCased before && !meetsCased cs then ['ς'] else ['σ']
  else lowerChar c

theorem lowerFrom_cons (before : List Char) (c : Char) (cs : List Char) :
  lowerFrom before (c :: cs) = lowerAt before c cs ++ lowerFrom (c :: before) cs
  := rfl

theorem lowerAt_of_lt (hc : c.toNat < 0x80) :
  lowerAt before c cs = [c.toLower]
  := by
  have hsigma : ¬(c.toNat == 0x3A3) = true := by
    rw [beq_iff_eq]
    omega
  rw [lowerAt, if_neg hsigma, lowerChar, if_pos hc]

/-- The form of a character is that which it has by itself, or a small sigma. -/
theorem lowerAt_cases (before : List Char) (c : Char) (cs : List Char) :
  lowerAt before c cs = lowerChar c ∨
    c = 'Σ' ∧ (lowerAt before c cs = ['ς'] ∨ lowerAt before c cs = ['σ'])
  := by
  rw [lowerAt]
  split
  · next hsigma =>
    right
    constructor
    · exact Char.toNat_inj.mp (beq_iff_eq.mp hsigma)
    · split
      · exact .inl rfl
      · exact .inr rfl
  · exact .inl rfl

theorem lowerAt_ne_nil :
  lowerAt before c cs ≠ []
  := by
  obtain h | ⟨-, h | h⟩ := lowerAt_cases before c cs
  · rw [h]
    exact lowerChar_ne_nil c
  · simp [h]
  · simp [h]

/-- What stands in the form of a character is the character itself, or else no capital of ASCII, no
sign before these, and no blank. -/
theorem eq_of_mem_lowerAt (h : d ∈ lowerAt before c cs)
    (hd : d.toNat < 0x61 ∨ isBlank d = true) :
  d = c
  := by
  by_cases hc : c.toNat < 0x80
  · rw [lowerAt_of_lt hc, List.mem_singleton] at h
    by_cases hupper : c.isUpper = true
    · have hnat := toNat_toLower hupper
      rw [isUpper_iff] at hupper
      rw [h, isBlank_iff] at hd
      simp only [blankRuns, hnat, List.mem_cons, List.not_mem_nil, or_false, exists_eq_or_imp,
        exists_eq_left] at hd
      omega
    · rw [h, Char.toLower_eq_of_not_isUpper hupper]
  · obtain hform | ⟨-, hform | hform⟩ := lowerAt_cases before c cs
    · rw [hform] at h
      obtain ⟨rfl, -⟩ | ⟨run, hrun, n, hfirst, hlast, -, rfl⟩ := mem_lowerChar (Nat.not_lt.mp hc) h
      · rfl
      · obtain ⟨hsmall, hvalid, hblanks⟩ := lowerRuns_spec run hrun
        have hnat : (Char.ofNat n).toNat = n := by
          rw [Char.toNat_ofNat, if_pos]
          rw [Nat.isValidChar]
          omega
        obtain hd | hd := hd
        · omega
        · obtain ⟨blanks, hmem, hlow, hhigh⟩ := isBlank_iff.mp hd
          have := hblanks blanks hmem
          omega
    · rw [hform, List.mem_singleton] at h
      subst h
      exact absurd hd (by decide)
    · rw [hform, List.mem_singleton] at h
      subst h
      exact absurd hd (by decide)

theorem lowerChar_of_mem_lowerAt (h : d ∈ lowerAt before c cs) :
  lowerChar d = [d]
  := by
  obtain hform | ⟨-, hform | hform⟩ := lowerAt_cases before c cs
  · rw [hform] at h
    exact lowerChar_of_mem_lowerChar h
  · rw [hform, List.mem_singleton] at h
    subst h
    decide +kernel
  · rw [hform, List.mem_singleton] at h
    subst h
    decide +kernel

/-- No capital of ASCII stands in the form of a character. -/
theorem not_isUpper_of_mem_lowerAt (h : d ∈ lowerAt before c cs) :
  ¬d.isUpper = true
  := by
  intro hupper
  obtain ⟨-, hlast⟩ := isUpper_iff.mp hupper
  obtain rfl : d = c := eq_of_mem_lowerAt h (.inl (by omega))
  rw [lowerAt_of_lt (by omega), List.mem_singleton] at h
  rw [h, Char.isUpper_toLower_eq_false] at hupper
  contradiction

/-- A blank is its own form. -/
theorem lowerAt_of_isBlank (h : isBlank c = true) :
  lowerAt before c cs = [c]
  := by
  obtain hform | ⟨rfl, -⟩ := lowerAt_cases before c cs
  · rw [hform, lowerChar_of_isBlank h]
  · exact absurd h (by decide)

/-! ### The forms of texts -/

theorem exists_of_mem_lowerFrom (h : d ∈ lowerFrom before cs) :
  ∃ c ∈ cs, ∃ before cs, d ∈ lowerAt before c cs
  := by
  induction cs generalizing before with
  | nil => contradiction
  | cons c cs ih =>
      rw [lowerFrom_cons, List.mem_append] at h
      obtain h | h := h
      · exact ⟨c, List.mem_cons_self, before, cs, h⟩
      · obtain ⟨c, hc, h⟩ := ih h
        exact ⟨c, List.mem_cons_of_mem _ hc, h⟩

theorem lowerFrom_eq_nil_iff (before : List Char) :
  lowerFrom before cs = [] ↔ cs = []
  := by
  cases cs with
  | nil => exact iff_of_true rfl rfl
  | cons c cs => simp [lowerFrom_cons, lowerAt_ne_nil]

/-- There are no capitals of ASCII in the form of a text. -/
theorem map_toLower_lowerFrom (before cs : List Char) :
  (lowerFrom before cs).map Char.toLower = lowerFrom before cs
  := by
  have hlower : ∀ d ∈ lowerFrom before cs, d.toLower = id d := by
    intro d hd
    obtain ⟨c, -, before, cs, hd⟩ := exists_of_mem_lowerFrom hd
    exact Char.toLower_eq_of_not_isUpper (not_isUpper_of_mem_lowerAt hd)
  rw [List.map_congr_left hlower, List.map_id]

theorem toLower_lower (s : String) :
  (lower s).toList.map Char.toLower = (lower s).toList
  := by
  rw [lower, String.toList_ofList, lowerChars, map_toLower_lowerFrom]

/-- A text of characters that have no forms of their own is its own form. -/
theorem lowerFrom_of_forall (h : ∀ c ∈ cs, lowerChar c = [c]) (before : List Char) :
  lowerFrom before cs = cs
  := by
  induction cs generalizing before with
  | nil => rfl
  | cons c cs ih =>
      obtain ⟨hc, hcs⟩ := List.forall_mem_cons.mp h
      have hat : lowerAt before c cs = [c] := by
        obtain hform | ⟨rfl, -⟩ := lowerAt_cases before c cs
        · rw [hform, hc]
        · exact absurd hc (by decide +kernel)
      rw [lowerFrom_cons, hat, ih hcs]
      rfl

/-- A form is its own form. -/
theorem lowerFrom_lowerFrom (before before' : List Char) :
  lowerFrom before (lowerFrom before' cs) = lowerFrom before' cs
  := by
  apply lowerFrom_of_forall
  intro d hd
  obtain ⟨c, -, before, cs, hd⟩ := exists_of_mem_lowerFrom hd
  exact lowerChar_of_mem_lowerAt hd

theorem lower_lower (s : String) :
  lower (lower s) = lower s
  := by
  rw [lower, lower, lowerChars, lowerChars, String.toList_ofList, lowerFrom_lowerFrom]

/-- A text and its form have the same blanks. -/
theorem mem_lowerFrom_iff_of_isBlank (h : isBlank d = true) (before : List Char) :
  d ∈ lowerFrom before cs ↔ d ∈ cs
  := by
  constructor
  · intro hd
    obtain ⟨c, hc, before, cs, hd⟩ := exists_of_mem_lowerFrom hd
    rw [eq_of_mem_lowerAt hd (.inr h)]
    exact hc
  · intro hd
    induction cs generalizing before with
    | nil => contradiction
    | cons c cs ih =>
        rw [lowerFrom_cons, List.mem_append]
        obtain rfl | hd := List.mem_cons.mp hd
        · left
          rw [lowerAt_of_isBlank h]
          exact List.mem_singleton_self d
        · exact .inr (ih (c :: before) hd)

/-- A sign of ASCII before the capitals begins a text just when it begins the form. -/
theorem head?_lowerFrom_iff (hd : d.toNat < 0x41) (before : List Char) :
  (lowerFrom before cs).head? = some d ↔ cs.head? = some d
  := by
  cases cs with
  | nil => exact iff_of_false nofun nofun
  | cons c cs =>
      rw [lowerFrom_cons, List.head?_append_of_ne_nil _ lowerAt_ne_nil, List.head?_cons,
        Option.some_inj]
      constructor
      · intro h
        exact (eq_of_mem_lowerAt (List.mem_of_head? h) (.inl (by omega))).symm
      · rintro rfl
        have hupper : ¬c.isUpper = true := by
          rw [isUpper_iff]
          omega
        rw [lowerAt_of_lt (by omega), Char.toLower_eq_of_not_isUpper hupper]
        rfl

/-! ### Letters beyond ASCII -/

/-- Whether no character of a text above ASCII has a lower-case form of its own. -/
def IsLowerAboveAscii (cs : List Char) : Prop :=
  ∀ c ∈ cs, 0x80 ≤ c.toNat → lowerChar c = [c]

instance (cs : List Char) : Decidable (IsLowerAboveAscii cs) :=
  inferInstanceAs (Decidable (∀ c ∈ cs, 0x80 ≤ c.toNat → lowerChar c = [c]))

/-- A character has the form that it has by the letters of ASCII alone just when it is one of them
or has no form of its own. -/
theorem lowerAt_eq_toLower_iff (before : List Char) (c : Char) (cs : List Char) :
  lowerAt before c cs = [c.toLower] ↔ (0x80 ≤ c.toNat → lowerChar c = [c])
  := by
  by_cases hc : c.toNat < 0x80
  · exact iff_of_true (lowerAt_of_lt hc) (fun h => absurd hc (Nat.not_lt.mpr h))
  · have hupper : ¬c.isUpper = true := by
      rw [isUpper_iff]
      omega
    rw [Char.toLower_eq_of_not_isUpper hupper, forall_prop_of_true (Nat.not_lt.mp hc)]
    obtain hform | ⟨rfl, hform⟩ := lowerAt_cases before c cs
    · rw [hform]
    · have hsigma : lowerChar 'Σ' ≠ ['Σ'] := by decide +kernel
      apply iff_of_false _ hsigma
      obtain hform | hform := hform
      · simp [hform]
      · simp [hform]

theorem length_le_lowerFrom (before cs : List Char) :
  cs.length ≤ (lowerFrom before cs).length
  := by
  induction cs generalizing before with
  | nil => exact Nat.le_refl 0
  | cons c cs ih =>
      have hpos : 0 < (lowerAt before c cs).length := List.length_pos_of_ne_nil lowerAt_ne_nil
      have := ih (c :: before)
      rw [lowerFrom_cons, List.length_append, List.length_cons]
      omega

/-- A text has the form that it has by the letters of ASCII alone just when no other character of it
has a form of its own. -/
theorem map_toLower_eq_lowerFrom_iff (before : List Char) :
  cs.map Char.toLower = lowerFrom before cs ↔ IsLowerAboveAscii cs
  := by
  induction cs generalizing before with
  | nil => exact iff_of_true rfl nofun
  | cons c cs ih =>
      rw [IsLowerAboveAscii, List.forall_mem_cons, ← lowerAt_eq_toLower_iff before c cs,
        ← IsLowerAboveAscii, ← ih (c :: before), lowerFrom_cons, List.map_cons]
      constructor
      · intro h
        -- No form is empty, so the first one cannot be longer than a character.
        have hlength := congrArg List.length h
        have hrest := length_le_lowerFrom (c :: before) cs
        have hpos : 0 < (lowerAt before c cs).length := List.length_pos_of_ne_nil lowerAt_ne_nil
        rw [List.length_cons, List.length_map, List.length_append] at hlength
        have hone : [c.toLower].length = (lowerAt before c cs).length := by
          rw [List.length_singleton]
          omega
        obtain ⟨hfirst, hothers⟩ := List.append_inj h hone
        exact ⟨hfirst.symm, hothers⟩
      · rintro ⟨hfirst, hothers⟩
        rw [hfirst, hothers]
        rfl

/-- A text differs from its lower-case form at most in the case of the letters of ASCII just when no
other character of it has a form of its own. -/
theorem sameIgnoringAsciiCase_lower_iff (s : String) :
  sameIgnoringAsciiCase s (lower s) = true ↔ IsLowerAboveAscii s.toList
  := by
  rw [sameIgnoringAsciiCase, beq_iff_eq, toLower_lower, lower, String.toList_ofList, lowerChars,
    map_toLower_eq_lowerFrom_iff]

end Prune.Text
