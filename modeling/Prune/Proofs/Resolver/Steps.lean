import Mathlib.Logic.Basic
import Mathlib.Tactic.ByContra
import Mathlib.Tactic.Use
import Prune.Resolver

/-!
# The steps of the resolver

What one directive does to a state of the resolver.  An effect (`Effect`) is what a step leaves
behind besides the open chains: the ranges it emits and the conditions it asks for.  `Step r s d t`
lists all that can happen when the resolver `r` reads the directive `d` in the state `s`, with the
reasons why, and `step_apply` says that `apply` does one of these things.  The run of a list of
directives is taken apart by `run_cons` and `run_append`.
-/

namespace Prune

namespace Resolver

/-- The ranges emitted and the conditions asked for, both in order. -/
structure Effect where
  ranges : List LineRange := []
  asked : List String := []

namespace Effect

/-- One effect after another. -/
def append (e f : Effect) : Effect :=
  ⟨e.ranges ++ f.ranges, e.asked ++ f.asked⟩

instance : Append Effect := ⟨append⟩

/-- Nothing is emitted and nothing asked for. -/
def none : Effect := {}

/-- The lines from `first` to `last` are emitted. -/
def drop (first last : Nat) : Effect := { ranges := [⟨first, last⟩] }

/-- A condition is asked for.  A missing one is the empty text. -/
def ask (condition : Option String) : Effect := { asked := [condition.getD ""] }

theorem append_def (e f : Effect) :
  e ++ f = ⟨e.ranges ++ f.ranges, e.asked ++ f.asked⟩
  := rfl

@[simp]
theorem none_append (e : Effect) :
  none ++ e = e
  := rfl

@[simp]
theorem append_none (e : Effect) :
  e ++ none = e
  := by
  simp [append_def, none]

end Effect

namespace State

/-- A state with the traces of an effect added to it. -/
def add (s : State) (e : Effect) : State :=
  { s with ranges := s.ranges ++ e.ranges, asked := s.asked ++ e.asked }

@[simp]
theorem add_stack (s : State) (e : Effect) :
  (s.add e).stack = s.stack
  := rfl

@[simp]
theorem add_ranges (s : State) (e : Effect) :
  (s.add e).ranges = s.ranges ++ e.ranges
  := rfl

@[simp]
theorem add_outcome (s : State) (e : Effect) :
  (s.add e).outcome = s.outcome
  := rfl

@[simp]
theorem add_none (s : State) :
  s.add .none = s
  := by
  simp [add, Effect.none]

theorem add_add (s : State) (e f : Effect) :
  (s.add e).add f = s.add (e ++ f)
  := by
  simp [add, Effect.append_def]

theorem emit_eq_add (s : State) (first last : Nat) :
  s.emit first last = s.add (.drop first last)
  := by
  simp [emit, add, Effect.drop]

/-- The outcome at the point reached is that of the innermost chain. -/
theorem outcome_cons {s : State} {frame : Frame} {below : List Frame}
    (hs : s.stack = frame :: below) :
  s.outcome = frame.outcome
  := by
  simp [outcome, hs]

end State

end Resolver

open Resolver (Effect)

namespace Frame

/-- Whether a chain can move on to a further branch: it can do so behind a branch with a condition,
unless it is skipped as a whole. -/
def Movable (frame : Frame) : Prop :=
  (frame.keyword = .opening ∨ frame.keyword = .elif) ∧ frame.outcome ≠ .skipped

/-- A chain that cannot move on behind a branch with a condition is skipped. -/
theorem outcome_of_not_movable {frame : Frame} (h : ¬ frame.Movable)
    (hk : frame.keyword = .opening ∨ frame.keyword = .elif) :
  frame.outcome = .skipped
  := by
  by_contra ho
  apply h ⟨hk, ho⟩

/-- What is emitted when the open branch is left on a line. -/
def leave (frame : Frame) (line : Nat) : Effect :=
  if frame.outcome = .dropped then .drop frame.line line else .none

/-- The frame of a chain whose next branch is opened by a directive, given what becomes of that
branch. -/
def next (frame : Frame) (keyword : Keyword) (line : Nat) (outcome : Outcome) : Frame :=
  { keyword := keyword, line := line, outcome := outcome, level := frame.level,
    matched := frame.matched || outcome == .taken }

end Frame

namespace Resolver

variable (r : Resolver)

/-- What becomes of a branch with a condition. -/
def judge (condition : Option String) : Outcome :=
  Outcome.ofBool (r.holds (condition.getD ""))

/-- The frame of a chain that a directive opens where the code is kept. -/
def firstFrame (s : State) (d : Directive) : Frame :=
  { keyword := .opening, line := d.line, outcome := r.judge d.expression, level := s.depth + 1,
    matched := r.judge d.expression == .taken }

/-- The frame of a chain that a directive opens where the code is not kept. -/
def skippedFrame (s : State) (d : Directive) : Frame :=
  { keyword := .opening, line := d.line, outcome := .skipped, level := s.depth + 1,
    matched := false }

/-- All that can happen when a directive is read. -/
inductive Step (s : State) (d : Directive) : State → Prop
  /-- A chain is opened, and its condition is asked for. -/
  | opened (hd : d.kind = .branch .opening) (live : s.outcome = .taken) :
      Step s d ({ s with stack := r.firstFrame s d :: s.stack }.add (.ask d.expression))
  /-- A chain is opened that is skipped as a whole. -/
  | skipped (hd : d.kind = .branch .opening) (dead : s.outcome ≠ .taken) :
      Step s d { s with stack := skippedFrame s d :: s.stack }
  /-- A chain of which a branch was taken moves on to a branch that is dropped. -/
  | passed {keyword : Keyword} {frame : Frame} {below : List Frame}
      (hd : d.kind = .branch keyword) (hk : keyword = .elif ∨ keyword = .otherwise)
      (hs : s.stack = frame :: below) (movable : frame.Movable) (matched : frame.matched = true) :
      Step s d ({ s with stack := frame.next keyword d.line .dropped :: below }.add
        (frame.leave d.line))
  /-- A chain of which no branch was taken moves on to a branch with a condition. -/
  | tested {frame : Frame} {below : List Frame} (hd : d.kind = .branch .elif)
      (hs : s.stack = frame :: below) (movable : frame.Movable) (matched : frame.matched = false) :
      Step s d ({ s with stack := frame.next .elif d.line (r.judge d.expression) :: below }.add
        (frame.leave d.line ++ Effect.ask d.expression))
  /-- A chain of which no branch was taken moves on to the branch that is taken otherwise. -/
  | defaulted {frame : Frame} {below : List Frame} (hd : d.kind = .branch .otherwise)
      (hs : s.stack = frame :: below) (movable : frame.Movable) (matched : frame.matched = false) :
      Step s d ({ s with stack := frame.next .otherwise d.line .taken :: below }.add
        (frame.leave d.line))
  /-- A branch fits nowhere. -/
  | unmoved {keyword : Keyword} (hd : d.kind = .branch keyword)
      (hk : keyword = .elif ∨ keyword = .otherwise)
      (stuck : ∀ frame below, s.stack = frame :: below → ¬ frame.Movable) :
      Step s d s
  /-- A chain is closed. -/
  | closed {frame : Frame} {below : List Frame} (hd : d.kind = .branch .closing)
      (hs : s.stack = frame :: below) :
      Step s d ({ s with stack := below }.add (frame.leave d.line))
  /-- There is no chain to close. -/
  | unclosed (hd : d.kind = .branch .closing) (hs : s.stack = []) :
      Step s d s
  /-- The line behind a switch that is off is dropped. -/
  | switched {name : String} (hd : d.kind = .switch name) (live : s.outcome = .taken)
      (off : r.switches.flag? name = some false) :
      Step s d (s.add (.drop d.line (d.line + 1)))
  /-- A switch is not off, or stands where the code is not kept. -/
  | unswitched {name : String} (hd : d.kind = .switch name)
      (idle : s.outcome ≠ .taken ∨ r.switches.flag? name ≠ some false) :
      Step s d s

variable {r}

theorem openChain_eq_of_taken {s : State} (live : s.outcome = .taken) (d : Directive) :
  r.openChain s d.line d.expression
    = { s with stack := r.firstFrame s d :: s.stack }.add (.ask d.expression)
  := by
  simp only [openChain, live, ask, firstFrame, judge]
  simp [State.add, Effect.ask]

theorem openChain_eq_of_not_taken {s : State} (dead : s.outcome ≠ .taken) (d : Directive) :
  r.openChain s d.line d.expression = { s with stack := skippedFrame s d :: s.stack }
  := by
  cases h : s.outcome with
  | taken => contradiction
  | dropped =>
      simp only [openChain, h]
      rfl
  | skipped =>
      simp only [openChain, h]
      rfl

/-- Moving on to a further branch leaves the open one, and asks for a condition only if no branch
was taken and the branch has one. -/
theorem nextBranch_eq {s : State} {frame : Frame} {below : List Frame}
    (hs : s.stack = frame :: below) (movable : frame.Movable) (keyword : Keyword) (line : Nat)
    (condition : Option String) :
  r.nextBranch s keyword line condition
    = if frame.matched then
        { s with stack := frame.next keyword line .dropped :: below }.add (frame.leave line)
      else if keyword = .otherwise then
        { s with stack := frame.next keyword line .taken :: below }.add (frame.leave line)
      else
        { s with stack := frame.next keyword line (r.judge condition) :: below }.add
          (frame.leave line ++ Effect.ask condition)
  := by
  obtain ⟨hk, ho⟩ := movable
  have hopen : (frame.keyword == .otherwise || frame.keyword == .closing) = false := by
    rcases hk with hk | hk
    · rw [hk]
      rfl
    · rw [hk]
      rfl
  simp only [nextBranch, hs, hopen, Bool.false_eq_true, if_false]
  cases h : frame.outcome with
  | skipped => contradiction
  | taken =>
      cases hm : frame.matched <;> cases keyword <;>
        simp [ask, judge, Frame.next, Frame.leave, State.add, Effect.ask, Effect.none,
          Effect.append_def, h, hm]
  | dropped =>
      cases hm : frame.matched <;> cases keyword <;>
        simp [ask, judge, Frame.next, Frame.leave, State.add, State.emit, Effect.ask, Effect.drop,
          Effect.append_def, h, hm]

/-- A branch that fits nowhere changes nothing. -/
theorem nextBranch_eq_self {s : State}
    (stuck : ∀ frame below, s.stack = frame :: below → ¬ frame.Movable) (keyword : Keyword)
    (line : Nat) (condition : Option String) :
  r.nextBranch s keyword line condition = s
  := by
  cases hs : s.stack with
  | nil => simp [nextBranch, hs]
  | cons frame below =>
      have hf := stuck frame below hs
      simp only [nextBranch, hs]
      cases hk : frame.keyword with
      | otherwise => rfl
      | closing => rfl
      | opening =>
          rw [Frame.outcome_of_not_movable hf (.inl hk)]
          rfl
      | elif =>
          rw [Frame.outcome_of_not_movable hf (.inr hk)]
          rfl

theorem closeChain_eq {s : State} {frame : Frame} {below : List Frame}
    (hs : s.stack = frame :: below) (line : Nat) :
  closeChain s line = { s with stack := below }.add (frame.leave line)
  := by
  simp only [closeChain, hs, Frame.leave]
  cases h : frame.outcome with
  | taken => simp
  | dropped => simp [State.emit_eq_add]
  | skipped => simp

/-- What can happen is what happens. -/
theorem apply_eq_of_step {s t : State} {d : Directive} (h : r.Step s d t) :
  r.apply s d = t
  := by
  cases h with
  | opened hd live =>
      simp only [apply, hd]
      apply openChain_eq_of_taken live
  | skipped hd dead =>
      simp only [apply, hd]
      apply openChain_eq_of_not_taken dead
  | passed hd hk hs movable matched =>
      rcases hk with rfl | rfl
      · simp [apply, hd, nextBranch_eq hs movable, matched]
      · simp [apply, hd, nextBranch_eq hs movable, matched]
  | tested hd hs movable matched => simp [apply, hd, nextBranch_eq hs movable, matched]
  | defaulted hd hs movable matched => simp [apply, hd, nextBranch_eq hs movable, matched]
  | unmoved hd hk stuck =>
      rcases hk with rfl | rfl
      · simp [apply, hd, nextBranch_eq_self stuck]
      · simp [apply, hd, nextBranch_eq_self stuck]
  | closed hd hs => simp [apply, hd, closeChain_eq hs]
  | unclosed hd hs => simp [apply, hd, closeChain, hs]
  | switched hd live off =>
      simp [apply, hd, applySwitch, live, off, State.emit_eq_add]
  | unswitched hd idle =>
      simp only [apply, hd, applySwitch]
      rcases idle with dead | on
      · simp [dead]
      · simp [on]

/-- Something can happen to a branch other than the first one. -/
theorem exists_step_branch {s : State} {d : Directive} {keyword : Keyword}
    (hd : d.kind = .branch keyword) (hk : keyword = .elif ∨ keyword = .otherwise) :
  ∃ t, r.Step s d t
  := by
  by_cases hm : ∃ frame below, s.stack = frame :: below ∧ frame.Movable
  · obtain ⟨frame, below, hs, movable⟩ := hm
    cases matched : frame.matched with
    | true => exact ⟨_, .passed hd hk hs movable matched⟩
    | false =>
        rcases hk with rfl | rfl
        · exact ⟨_, .tested hd hs movable matched⟩
        · exact ⟨_, .defaulted hd hs movable matched⟩
  · use s
    apply Step.unmoved hd hk
    intro frame below hs movable
    apply hm ⟨frame, below, hs, movable⟩

/-- Something can always happen. -/
theorem exists_step (s : State) (d : Directive) :
  ∃ t, r.Step s d t
  := by
  cases hd : d.kind with
  | branch keyword =>
      cases keyword with
      | opening =>
          by_cases h : s.outcome = .taken
          · exact ⟨_, .opened hd h⟩
          · exact ⟨_, .skipped hd h⟩
      | elif => apply exists_step_branch hd (.inl rfl)
      | otherwise => apply exists_step_branch hd (.inr rfl)
      | closing =>
          cases hs : s.stack with
          | nil => exact ⟨_, .unclosed hd hs⟩
          | cons frame below => exact ⟨_, .closed hd hs⟩
  | switch name =>
      by_cases h : s.outcome = .taken ∧ r.switches.flag? name = some false
      · exact ⟨_, .switched hd h.1 h.2⟩
      · exact ⟨_, .unswitched hd (not_and_or.mp h)⟩

/-- What happens is one of the things that can happen. -/
theorem step_apply (s : State) (d : Directive) :
  r.Step s d (r.apply s d)
  := by
  obtain ⟨t, h⟩ := exists_step (r := r) s d
  rw [apply_eq_of_step h]
  exact h

/-- A chain that can move on does so when it meets a further branch. -/
theorem apply_of_movable {s : State} {d : Directive} {keyword : Keyword} {frame : Frame}
    {below : List Frame} (hd : d.kind = .branch keyword)
    (hk : keyword = .elif ∨ keyword = .otherwise) (hs : s.stack = frame :: below)
    (movable : frame.Movable) :
  ∃ outcome asked, r.apply s d =
    { s with stack := frame.next keyword d.line outcome :: below }.add
      { ranges := (frame.leave d.line).ranges, asked := asked }
  := by
  cases matched : frame.matched with
  | true =>
      use .dropped, (frame.leave d.line).asked
      apply apply_eq_of_step (.passed hd hk hs movable matched)
  | false =>
      rcases hk with rfl | rfl
      · use r.judge d.expression, (frame.leave d.line).asked ++ [d.expression.getD ""]
        rw [apply_eq_of_step (.tested hd hs movable matched), Effect.append_def]
        simp [Effect.ask]
      · use .taken, (frame.leave d.line).asked
        apply apply_eq_of_step (.defaulted hd hs movable matched)

/-- A further branch changes nothing where the innermost chain cannot move on. -/
theorem apply_of_not_movable {s : State} {d : Directive} {keyword : Keyword} {frame : Frame}
    {below : List Frame} (hd : d.kind = .branch keyword)
    (hk : keyword = .elif ∨ keyword = .otherwise) (hs : s.stack = frame :: below)
    (h : ¬ frame.Movable) :
  r.apply s d = s
  := by
  apply apply_eq_of_step
  apply Step.unmoved hd hk
  intro frame' below' hs'
  rw [hs] at hs'
  obtain ⟨rfl, rfl⟩ := List.cons.inj hs'
  exact h

/-! ### Runs -/

@[simp]
theorem run_nil (s : State) :
  r.run s [] = s
  := rfl

@[simp]
theorem run_cons (s : State) (d : Directive) (ds : List Directive) :
  r.run s (d :: ds) = r.run (r.apply s d) ds
  := rfl

theorem run_append (s : State) (ds es : List Directive) :
  r.run s (ds ++ es) = r.run (r.run s ds) es
  := List.foldl_append

end Resolver

end Prune
