import Mathlib.Data.List.Basic
import Prune.Proofs.Resolver.Steps

/-!
# The open chains

What a step does to the open chains alone (`Restack`): it leaves them as they are, opens a chain,
moves the innermost one on, or closes it.  What every step preserves holds along a run
(`run_induction`).  Two things are preserved:

* a chain inside a branch that is not kept is skipped (`Nested`), so that where the code is kept all
  open branches are kept (`Nested.outcome_eq_taken`);
* behind a line, the chains that were open on it are still open as they were, but for some of the
  innermost ones (`Fresh`).
-/

namespace Prune.Resolver

variable {r : Resolver}

/-- What a directive on a line can do to the open chains. -/
inductive Restack (line : Nat) : List Frame → List Frame → Prop
  | same (stack : List Frame) : Restack line stack stack
  /-- A chain is opened: it is skipped unless all open branches are kept. -/
  | pushed {stack : List Frame} {frame : Frame} (hl : frame.line = line)
      (ho : frame.outcome = .skipped ∨ ∀ below ∈ stack.head?, below.outcome = .taken) :
      Restack line stack (frame :: stack)
  /-- The innermost chain, which is not skipped, moves on. -/
  | moved {frame next : Frame} {below : List Frame} (movable : frame.Movable)
      (hl : next.line = line) (ho : next.outcome ≠ .skipped) :
      Restack line (frame :: below) (next :: below)
  /-- The innermost chain is closed. -/
  | popped (frame : Frame) (below : List Frame) : Restack line (frame :: below) below

theorem judge_ne_skipped (condition : Option String) :
  r.judge condition ≠ .skipped
  := by
  rw [judge, Outcome.ofBool]
  split
  · simp
  · simp

theorem State.head_taken {s : State} (live : s.outcome = .taken) :
  ∀ frame ∈ s.stack.head?, frame.outcome = .taken
  := by
  intro frame h
  obtain ⟨below, hs⟩ := List.head?_eq_some_iff.mp h
  rw [← State.outcome_cons hs]
  exact live

/-- A step does one of these things to the open chains. -/
theorem restack_apply (s : State) (d : Directive) :
  Restack d.line s.stack (r.apply s d).stack
  := by
  have h := step_apply (r := r) s d
  generalize r.apply s d = t at h ⊢
  cases h with
  | opened hd live =>
      apply Restack.pushed
      · rfl
      · right
        apply State.head_taken live
  | skipped hd dead =>
      apply Restack.pushed
      · rfl
      · left
        rfl
  | passed hd hk hs movable matched =>
      rw [hs]
      apply Restack.moved movable
      · rfl
      · simp [Frame.next]
  | tested hd hs movable matched =>
      rw [hs]
      apply Restack.moved movable
      · rfl
      · apply judge_ne_skipped
  | defaulted hd hs movable matched =>
      rw [hs]
      apply Restack.moved movable
      · rfl
      · simp [Frame.next]
  | unmoved hd hk stuck => apply Restack.same
  | closed hd hs =>
      rw [hs]
      apply Restack.popped
  | unclosed hd hs => apply Restack.same
  | switched hd live off => apply Restack.same
  | unswitched hd idle => apply Restack.same

/-- What holds of all open branches and of those that start on the line of a directive holds of all
open branches when the directive was read. -/
theorem Restack.forall_mem {line : Nat} {stack stack' : List Frame} {P : Frame → Prop}
    (hr : Restack line stack stack') (h : ∀ frame ∈ stack, P frame)
    (hnew : ∀ frame, frame.line = line → P frame) :
  ∀ frame ∈ stack', P frame
  := by
  cases hr with
  | same => exact h
  | pushed hline ho => exact List.forall_mem_cons.mpr ⟨hnew _ hline, h⟩
  | moved movable hline ho =>
      exact List.forall_mem_cons.mpr ⟨hnew _ hline, (List.forall_mem_cons.mp h).2⟩
  | popped frame below => exact (List.forall_mem_cons.mp h).2

/-- What holds at first and is preserved by the directives of a list holds when they are read. -/
theorem run_induction {P : State → Prop} {ds : List Directive}
    (step : ∀ s, ∀ d ∈ ds, P s → P (r.apply s d)) {s : State} (h : P s) :
  P (r.run s ds)
  := by
  induction ds generalizing s with
  | nil => exact h
  | cons d ds ih =>
      rw [run_cons]
      apply ih
      · intro s d hd
        apply step s d (List.mem_cons_of_mem _ hd)
      · apply step s d List.mem_cons_self h

/-! ### Chains inside branches that are not kept -/

/-- Every chain inside a branch that is not kept is skipped. -/
def Nested (stack : List Frame) : Prop :=
  stack.Pairwise fun inner outer => outer.outcome ≠ .taken → inner.outcome = .skipped

theorem outcome_eq_taken_of_nested {frame : Frame} {below : List Frame}
    (h : Nested (frame :: below)) (ho : frame.outcome ≠ .skipped) :
  ∀ outer ∈ below, outer.outcome = .taken
  := by
  intro outer hmem
  by_contra hne
  apply ho
  apply (List.pairwise_cons.mp h).1 outer hmem hne

theorem Nested.restack {line : Nat} {stack stack' : List Frame} (h : Nested stack)
    (hr : Restack line stack stack') :
  Nested stack'
  := by
  cases hr with
  | same => exact h
  | pushed hl ho =>
      apply List.pairwise_cons.mpr
      constructor
      · intro outer hmem hne
        rcases ho with skipped | live
        · exact skipped
        · cases stack with
          | nil => contradiction
          | cons top below =>
              have htop := live top rfl
              rcases List.mem_cons.mp hmem with rfl | hbelow
              · contradiction
              · have := outcome_eq_taken_of_nested h (by simp [htop]) outer hbelow
                contradiction
      · exact h
  | moved movable hl ho =>
      have htaken := outcome_eq_taken_of_nested h movable.2
      apply List.pairwise_cons.mpr
      constructor
      · intro outer hmem hne
        have := htaken outer hmem
        contradiction
      · exact (List.pairwise_cons.mp h).2
  | popped frame below => exact (List.pairwise_cons.mp h).2

/-- In every state that is reached, the chains inside branches that are not kept are skipped. -/
theorem nested_resolve (ds : List Directive) :
  Nested (r.resolve ds).stack
  := by
  apply run_induction (P := fun s => Nested s.stack)
  · intro s d _ h
    apply h.restack (restack_apply s d)
  · apply List.Pairwise.nil

/-- Where the code is kept, all open branches are kept. -/
theorem Nested.outcome_eq_taken {s : State} (h : Nested s.stack) (live : s.outcome = .taken) :
  ∀ frame ∈ s.stack, frame.outcome = .taken
  := by
  intro frame hmem
  cases hs : s.stack with
  | nil => simp [hs] at hmem
  | cons top below =>
      rw [hs] at h hmem
      rw [State.outcome_cons hs] at live
      rcases List.mem_cons.mp hmem with rfl | hbelow
      · exact live
      · apply outcome_eq_taken_of_nested h (by simp [live]) frame hbelow

/-! ### Chains opened behind a line -/

/-- The chains `stack'` are those of `stack` but for some of the innermost ones, with chains before
them whose open branches start behind a line. -/
def Fresh (line : Nat) (stack stack' : List Frame) : Prop :=
  ∃ fresh kept, stack' = fresh ++ kept ∧ kept <:+ stack ∧ ∀ frame ∈ fresh, line < frame.line

theorem Fresh.restack {line line' : Nat} {stack stack' stack'' : List Frame}
    (h : Fresh line stack stack') (hr : Restack line' stack' stack'') (hl : line < line') :
  Fresh line stack stack''
  := by
  obtain ⟨fresh, kept, heq, hsuffix, hfresh⟩ := h
  cases hr with
  | same => exact ⟨fresh, kept, heq, hsuffix, hfresh⟩
  | @pushed _ frame hline ho =>
      use frame :: fresh, kept
      refine ⟨by rw [heq, List.cons_append], hsuffix, ?_⟩
      intro f hf
      rcases List.mem_cons.mp hf with rfl | hf
      · omega
      · apply hfresh f hf
  | @moved frame next below movable hline ho =>
      cases fresh with
      | nil =>
          -- A chain that was open before moves on: from now on it counts as a new one.
          use [next], below
          refine ⟨rfl, ?_, ?_⟩
          · apply List.IsSuffix.trans _ hsuffix
            rw [List.nil_append] at heq
            rw [← heq]
            apply List.suffix_cons
          · intro f hf
            rw [List.mem_singleton.mp hf]
            omega
      | cons top fresh =>
          obtain ⟨rfl, rfl⟩ := List.cons.inj heq
          use next :: fresh, kept
          refine ⟨rfl, hsuffix, ?_⟩
          intro f hf
          rcases List.mem_cons.mp hf with rfl | hf
          · omega
          · apply hfresh f (List.mem_cons_of_mem _ hf)
  | popped frame below =>
      cases fresh with
      | nil =>
          use [], stack''
          refine ⟨rfl, ?_, by simp⟩
          apply List.IsSuffix.trans _ hsuffix
          rw [List.nil_append] at heq
          rw [← heq]
          apply List.suffix_cons
      | cons top fresh =>
          obtain ⟨rfl, rfl⟩ := List.cons.inj heq
          use fresh, kept
          refine ⟨rfl, hsuffix, ?_⟩
          intro f hf
          apply hfresh f (List.mem_cons_of_mem _ hf)

/-- While directives behind a line are read, the chains that were open on the line stay as they are
until they are left. -/
theorem fresh_run {line : Nat} {ds : List Directive} (behind : ∀ d ∈ ds, line < d.line)
    (s : State) :
  Fresh line s.stack (r.run s ds).stack
  := by
  apply run_induction (P := fun t => Fresh line s.stack t.stack)
  · intro t d hd h
    apply h.restack (restack_apply t d) (behind d hd)
  · use [], s.stack
    simp

/-- A branch that starts before a line, and is open behind it, was open on the line. -/
theorem suffix_of_fresh {line : Nat} {stack below : List Frame} {frame : Frame}
    (h : Fresh line stack (frame :: below)) (hl : frame.line ≤ line) :
  frame :: below <:+ stack
  := by
  obtain ⟨fresh, kept, heq, hsuffix, hfresh⟩ := h
  cases fresh with
  | nil =>
      rw [heq]
      exact hsuffix
  | cons top fresh =>
      obtain ⟨rfl, rfl⟩ := List.cons.inj heq
      have := hfresh frame List.mem_cons_self
      omega

/-- Directives before a line open branches before the line. -/
theorem line_lt_of_mem_resolve {line : Nat} {ds : List Directive}
    (before : ∀ d ∈ ds, d.line < line) :
  ∀ frame ∈ (r.resolve ds).stack, frame.line < line
  := by
  apply run_induction (P := fun s => ∀ frame ∈ s.stack, frame.line < line)
  · intro s d hd h
    apply (restack_apply s d).forall_mem h
    intro frame hline
    rw [hline]
    apply before d hd
  · simp

end Prune.Resolver
