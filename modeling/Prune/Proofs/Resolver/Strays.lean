import Mathlib.Data.List.Forall2
import Prune.Proofs.Resolver.Steps

/-!
# Directives that fit nowhere

A directive is a stray if it is a further branch or an end where no chain is open, or a further
branch behind the last one of its chain, which has no condition.  Strays are found without asking
for a condition, by a pass that only remembers for each open chain whether its last branch was met
(`withoutStrays`).  The resolver does the same with and without them.

The pass and the resolver do not see the same chains: a chain that is skipped stays at its first
branch for the resolver, while the pass goes through its branches.  They agree on the other chains
(`Fits`), and in a chain that is skipped both kinds of branches change nothing.
-/

namespace Prune.Resolver

variable {r : Resolver}

/-- The marks of the open chains behind a directive, innermost first, or none if the directive is a
stray.  A chain is marked once its branch without a condition was met. -/
def fit? (marks : List Bool) (d : Directive) : Option (List Bool) :=
  match d.kind, marks with
  | .branch .opening, _ => some (false :: marks)
  | .branch .elif, false :: _ => some marks
  | .branch .otherwise, false :: below => some (true :: below)
  | .branch .closing, _ :: below => some below
  | .branch _, _ => none
  | .switch _, _ => some marks

/-- The directives that are not strays, given the marks of the chains that are open before them. -/
def withoutStrays (marks : List Bool) : List Directive → List Directive
  | [] => []
  | d :: ds =>
    match fit? marks d with
    | some marks => d :: withoutStrays marks ds
    | none => withoutStrays marks ds

/-- Whether a chain of the resolver agrees with a mark: unless it is skipped, it is marked just when
its branch without a condition is open. -/
def Fits (frame : Frame) (mark : Bool) : Prop :=
  frame.keyword ≠ .closing ∧
    (frame.outcome ≠ .skipped → (mark = true ↔ frame.keyword = .otherwise))

/-- A chain that is not marked can move on unless it is skipped. -/
theorem Fits.movable {frame : Frame} (h : Fits frame false) (ho : frame.outcome ≠ .skipped) :
  frame.Movable
  := by
  obtain ⟨hclosing, hmark⟩ := h
  have hotherwise := hmark ho
  refine ⟨?_, ho⟩
  cases hk : frame.keyword with
  | opening => exact .inl rfl
  | elif => exact .inr rfl
  | otherwise => simp [hk] at hotherwise
  | closing => contradiction

/-- A chain that is marked cannot move on. -/
theorem Fits.not_movable {frame : Frame} (h : Fits frame true) :
  ¬ frame.Movable
  := by
  rintro ⟨hk, ho⟩
  have hotherwise := (h.2 ho).mp rfl
  rcases hk with hk | hk
  · simp [hk] at hotherwise
  · simp [hk] at hotherwise

/-- A chain agrees with any mark while it is skipped. -/
theorem Fits.of_skipped {frame : Frame} {mark : Bool} (h : Fits frame mark)
    (ho : frame.outcome = .skipped) (mark' : Bool) :
  Fits frame mark'
  := by
  refine ⟨h.1, ?_⟩
  intro hne
  contradiction

/-- The pass and the resolver agree behind a further branch of a chain that is not marked: if it is
the branch without a condition, the chain is marked from there on. -/
theorem forall₂_fits_branch {s : State} {d : Directive} {keyword : Keyword} {frame : Frame}
    {below : List Frame} {marks : List Bool} (hs : s.stack = frame :: below)
    (hframe : Fits frame false) (hbelow : List.Forall₂ Fits below marks)
    (hd : d.kind = .branch keyword) (hk : keyword = .elif ∨ keyword = .otherwise) :
  List.Forall₂ Fits (r.apply s d).stack ((keyword == .otherwise) :: marks)
  := by
  by_cases ho : frame.outcome = .skipped
  · rw [apply_of_not_movable hd hk hs fun movable => movable.2 ho, hs]
    apply List.Forall₂.cons (hframe.of_skipped ho _) hbelow
  · obtain ⟨outcome, asked, happly⟩ := apply_of_movable (r := r) hd hk hs (hframe.movable ho)
    rw [happly]
    apply List.Forall₂.cons _ hbelow
    rcases hk with rfl | rfl
    · simp [Fits, Frame.next]
    · simp [Fits, Frame.next]

/-- The pass and the resolver agree behind a directive that is not a stray. -/
theorem forall₂_fits_apply {s : State} {d : Directive} {marks marks' : List Bool}
    (h : List.Forall₂ Fits s.stack marks) (hfit : fit? marks d = some marks') :
  List.Forall₂ Fits (r.apply s d).stack marks'
  := by
  cases hd : d.kind with
  | switch name =>
      obtain rfl : marks = marks' := by simpa [fit?, hd] using hfit
      simp only [apply, hd, applySwitch]
      split
      · exact h
      · exact h
  | branch keyword =>
      cases keyword with
      | opening =>
          obtain rfl : false :: marks = marks' := by simpa [fit?, hd] using hfit
          by_cases live : s.outcome = .taken
          · rw [apply_eq_of_step (.opened hd live)]
            apply List.Forall₂.cons _ h
            simp [Fits, firstFrame]
          · rw [apply_eq_of_step (.skipped hd live)]
            apply List.Forall₂.cons _ h
            simp [Fits, skippedFrame]
      | elif =>
          generalize hs : s.stack = stack at h
          cases h with
          | nil => simp [fit?, hd] at hfit
          | @cons frame mark below marks hframe hbelow =>
              cases mark with
              | true => simp [fit?, hd] at hfit
              | false =>
                  obtain rfl : false :: marks = marks' := by simpa [fit?, hd] using hfit
                  apply forall₂_fits_branch hs hframe hbelow hd (.inl rfl)
      | otherwise =>
          generalize hs : s.stack = stack at h
          cases h with
          | nil => simp [fit?, hd] at hfit
          | @cons frame mark below marks hframe hbelow =>
              cases mark with
              | true => simp [fit?, hd] at hfit
              | false =>
                  obtain rfl : true :: marks = marks' := by simpa [fit?, hd] using hfit
                  apply forall₂_fits_branch hs hframe hbelow hd (.inr rfl)
      | closing =>
          generalize hs : s.stack = stack at h
          cases h with
          | nil => simp [fit?, hd] at hfit
          | @cons frame mark below marks hframe hbelow =>
              obtain rfl : marks = marks' := by simpa [fit?, hd] using hfit
              rw [apply_eq_of_step (.closed hd hs)]
              exact hbelow

/-- A further branch where no chain is open, or behind the last branch of its chain, changes
nothing. -/
theorem apply_eq_self_of_stray_branch {s : State} {d : Directive} {keyword : Keyword}
    {marks : List Bool} (h : List.Forall₂ Fits s.stack marks) (hd : d.kind = .branch keyword)
    (hk : keyword = .elif ∨ keyword = .otherwise) (hmark : ∀ below, marks ≠ false :: below) :
  r.apply s d = s
  := by
  apply apply_eq_of_step
  apply Step.unmoved hd hk
  intro frame below hs
  rw [hs] at h
  cases h with
  | @cons _ mark _ marks hframe hbelow =>
      cases mark with
      | true => exact hframe.not_movable
      | false =>
          have := hmark marks
          contradiction

/-- A stray changes nothing. -/
theorem apply_eq_self_of_stray {s : State} {d : Directive} {marks : List Bool}
    (h : List.Forall₂ Fits s.stack marks) (hfit : fit? marks d = none) :
  r.apply s d = s
  := by
  cases hd : d.kind with
  | switch name => simp [fit?, hd] at hfit
  | branch keyword =>
      cases keyword with
      | opening => simp [fit?, hd] at hfit
      | elif =>
          apply apply_eq_self_of_stray_branch h hd (.inl rfl)
          rintro below rfl
          simp [fit?, hd] at hfit
      | otherwise =>
          apply apply_eq_self_of_stray_branch h hd (.inr rfl)
          rintro below rfl
          simp [fit?, hd] at hfit
      | closing =>
          generalize hs : s.stack = stack at h
          cases h with
          | nil => apply apply_eq_of_step (.unclosed hd hs)
          | cons hframe hbelow => simp [fit?, hd] at hfit

/-- From states that agree with the marks, a run is the same with and without strays. -/
theorem run_withoutStrays {s : State} {marks : List Bool} (h : List.Forall₂ Fits s.stack marks)
    (ds : List Directive) :
  r.run s (withoutStrays marks ds) = r.run s ds
  := by
  induction ds generalizing s marks with
  | nil => rfl
  | cons d ds ih =>
      cases hd : fit? marks d with
      | some marks' =>
          simp only [withoutStrays, hd, run_cons]
          apply ih (forall₂_fits_apply h hd)
      | none =>
          simp only [withoutStrays, hd, run_cons]
          rw [apply_eq_self_of_stray h hd]
          apply ih h

/-- Strays are inert: with and without them the resolver emits the same ranges, asks for the same
conditions and ends in the same depth. -/
theorem resolve_withoutStrays (r : Resolver) (ds : List Directive) :
  (r.resolve (withoutStrays [] ds)).ranges = (r.resolve ds).ranges ∧
    (r.resolve (withoutStrays [] ds)).asked = (r.resolve ds).asked ∧
    (r.resolve (withoutStrays [] ds)).depth = (r.resolve ds).depth
  := by
  have h : r.resolve (withoutStrays [] ds) = r.resolve ds := by
    apply run_withoutStrays List.Forall₂.nil
  rw [h]
  exact ⟨rfl, rfl, rfl⟩

end Prune.Resolver
