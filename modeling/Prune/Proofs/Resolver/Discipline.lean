import Mathlib.Data.List.Basic
import Mathlib.Data.List.Induction
import Prune.Proofs.Resolver.Stack

/-!
# The discipline of the open chains

What the open chains look like in every state that is reached, whatever directives were read.  Each
chain fits on the chains around it (`Frame.FitsOn`): it is one level deeper, and it is skipped just
when the branch around it is not kept.  Chains of which each fits on those around it (`Stacked`) have
the levels from one on, and the open branches are, from the outermost one on, some that are kept,
then at most one that is dropped, and behind it none but skipped ones (`Stacked.outcomes`).

The open branch of a chain begins at the last directive that opened the chain or moved it on
(`Begins`): each open chain was open before the directive just read, or is turned by it (`Origin`).
-/

namespace Prune

/-- Whether the frame of a chain fits on those of the chains around it, innermost first. -/
structure Frame.FitsOn (below : List Frame) (frame : Frame) : Prop where
  level : frame.level = below.length + 1
  keyword : frame.keyword ≠ .closing
  /-- A chain is skipped when the branch around it is not kept, and only then. -/
  skipped_iff : frame.outcome = .skipped ↔ ∃ outer ∈ below.head?, outer.outcome ≠ .taken
  matched_of_taken : frame.outcome = .taken → frame.matched = true
  matched_of_otherwise : frame.keyword = .otherwise → frame.matched = true
  /-- A chain that is skipped stays at its first branch. -/
  of_skipped : frame.outcome = .skipped → frame.keyword = .opening ∧ frame.matched = false

/-- A chain is skipped just when the open branch around it, the first of those around it, is not
kept. -/
theorem Frame.FitsOn.skipped_iff_of_outcomes {frame : Frame} {below : List Frame}
    (h : frame.FitsOn below) {outcomes : List Outcome} (hbelow : below.map Frame.outcome = outcomes) :
  frame.outcome = .skipped ↔ ∃ outcome ∈ outcomes.head?, outcome ≠ .taken
  := by
  rw [h.skipped_iff, ← hbelow, List.head?_map]
  simp

/-- A chain that moves on fits where it did before: it was not skipped, and is not from now on. -/
theorem Frame.FitsOn.next {frame : Frame} {below : List Frame} (h : frame.FitsOn below)
    (movable : frame.Movable) {keyword : Keyword} (hk : keyword = .elif ∨ keyword = .otherwise)
    {outcome : Outcome} (ho : outcome ≠ .skipped)
    (hmatched : keyword = .otherwise → frame.matched = true ∨ outcome = .taken) (line : Nat) :
  (frame.next keyword line outcome).FitsOn below
  := by
  constructor
  · apply h.level
  · rcases hk with rfl | rfl
    · simp [Frame.next]
    · simp [Frame.next]
  · apply iff_of_false ho
    rw [← h.skipped_iff]
    apply movable.2
  · intro htaken
    have htaken : outcome = .taken := htaken
    simp [Frame.next, htaken]
  · intro hotherwise
    rcases hmatched hotherwise with hm | htaken
    · simp [Frame.next, hm]
    · simp [Frame.next, htaken]
  · intro hskipped
    contradiction

namespace Resolver

variable {r : Resolver} {s : State} {d : Directive} {ds : List Directive} {frame : Frame}
  {below stack : List Frame}

/-- Chains of which each fits on those around it, innermost first. -/
inductive Stacked : List Frame → Prop
  | nil : Stacked []
  | cons {frame : Frame} {below : List Frame} (hbelow : Stacked below)
      (hframe : frame.FitsOn below) : Stacked (frame :: below)

/-! ### What steps preserve -/

/-- The depth is the number of the open chains. -/
theorem Stacked.depth_eq (h : Stacked s.stack) :
  s.depth = s.stack.length
  := by
  cases hs : s.stack with
  | nil => simp [State.depth, hs]
  | cons frame below =>
      rw [hs] at h
      cases h with
      | cons hbelow hframe => simp [State.depth, hs, hframe.level]

/-- What becomes of the code at the point reached is what becomes of the innermost branch. -/
theorem outcome_ne_taken_iff :
  s.outcome ≠ .taken ↔ ∃ outer ∈ s.stack.head?, outer.outcome ≠ .taken
  := by
  cases hs : s.stack with
  | nil => simp [State.outcome, hs]
  | cons frame below => simp [State.outcome, hs]

theorem fitsOn_firstFrame (h : Stacked s.stack) (live : s.outcome = .taken) :
  (r.firstFrame s d).FitsOn s.stack
  := by
  have hjudge := judge_ne_skipped (r := r) d.expression
  constructor
  · simp [firstFrame, h.depth_eq]
  · simp [firstFrame]
  · apply iff_of_false hjudge
    rw [← outcome_ne_taken_iff]
    simp [live]
  · intro ho
    simpa [firstFrame] using ho
  · simp [firstFrame]
  · intro ho
    contradiction

theorem fitsOn_skippedFrame (h : Stacked s.stack) (dead : s.outcome ≠ .taken) :
  (skippedFrame s d).FitsOn s.stack
  := by
  constructor
  · simp [skippedFrame, h.depth_eq]
  · simp [skippedFrame]
  · apply iff_of_true rfl
    apply outcome_ne_taken_iff.mp dead
  · simp [skippedFrame]
  · simp [skippedFrame]
  · simp [skippedFrame]

theorem Stacked.next (h : Stacked (frame :: below)) (movable : frame.Movable) {keyword : Keyword}
    (hk : keyword = .elif ∨ keyword = .otherwise) {outcome : Outcome} (ho : outcome ≠ .skipped)
    (hmatched : keyword = .otherwise → frame.matched = true ∨ outcome = .taken) (line : Nat) :
  Stacked (frame.next keyword line outcome :: below)
  := by
  cases h with
  | cons hbelow hframe =>
      apply Stacked.cons hbelow
      apply hframe.next movable hk ho hmatched

theorem Stacked.tail (h : Stacked (frame :: below)) :
  Stacked below
  := by
  cases h with
  | cons hbelow hframe => exact hbelow

/-- A step leaves chains that fit on each other. -/
theorem Stacked.apply (h : Stacked s.stack) (d : Directive) :
  Stacked (r.apply s d).stack
  := by
  have hstep := step_apply (r := r) s d
  generalize r.apply s d = t at hstep ⊢
  cases hstep with
  | opened hd live =>
      apply Stacked.cons h
      apply fitsOn_firstFrame h live
  | skipped hd dead =>
      apply Stacked.cons h
      apply fitsOn_skippedFrame h dead
  | passed hd hk hs movable matched =>
      rw [hs] at h
      apply h.next movable hk (by simp)
      simp [matched]
  | tested hd hs movable matched =>
      rw [hs] at h
      apply h.next movable (.inl rfl) (judge_ne_skipped d.expression)
      simp
  | defaulted hd hs movable matched =>
      rw [hs] at h
      apply h.next movable (.inr rfl) (by simp)
      simp
  | unmoved hd hk stuck => exact h
  | closed hd hs =>
      rw [hs] at h
      apply h.tail
  | unclosed hd hs => exact h
  | switched hd live off => exact h
  | unswitched hd idle => exact h

/-- In every state that is reached, the open chains fit on each other. -/
theorem stacked_resolve (ds : List Directive) :
  Stacked (r.resolve ds).stack
  := by
  apply run_induction (P := fun s => Stacked s.stack)
  · intro s d _ h
    apply h.apply
  · apply Stacked.nil

/-! ### Chains that fit on each other -/

/-- The levels count the chains, the outermost one first. -/
theorem Stacked.levels (h : Stacked stack) :
  stack.reverse.map Frame.level = List.range' 1 stack.length
  := by
  induction h with
  | nil => rfl
  | @cons frame below _ hframe ih =>
      rw [List.reverse_cons, List.map_append, ih, List.length_cons, List.range'_concat]
      simp [hframe.level, Nat.add_comm]

theorem Stacked.exists_fitsOn (h : Stacked stack) (hmem : frame ∈ stack) :
  ∃ below, frame.FitsOn below
  := by
  induction h with
  | nil => simp at hmem
  | cons _ hframe ih =>
      rcases List.mem_cons.mp hmem with rfl | hmem
      · exact ⟨_, hframe⟩
      · apply ih hmem

/-- Some open branches are kept, the outermost ones, then at most one is dropped, and behind it all
are skipped. -/
theorem Stacked.outcomes (h : Stacked stack) :
  ∃ kept, stack.map Frame.outcome = List.replicate kept .taken ∨
    ∃ skipped, stack.map Frame.outcome
      = List.replicate skipped .skipped ++ .dropped :: List.replicate kept .taken
  := by
  induction h with
  | nil => exact ⟨0, .inl rfl⟩
  | @cons frame below _ hframe ih =>
      obtain ⟨kept, ih | ⟨skipped, ih⟩⟩ := ih
      · -- all branches around the chain are kept
        have hne : frame.outcome ≠ .skipped := by
          rw [ne_eq, hframe.skipped_iff_of_outcomes ih]
          cases kept with
          | zero => simp
          | succ kept => simp [List.replicate_succ]
        cases ho : frame.outcome with
        | taken =>
            use kept + 1
            left
            rw [List.map_cons, ih, ho, List.replicate_succ]
        | dropped =>
            use kept
            right
            use 0
            rw [List.map_cons, ih, ho, List.replicate_zero, List.nil_append]
        | skipped => contradiction
      · -- the branch around the chain is dropped or skipped
        have ho : frame.outcome = .skipped := by
          rw [hframe.skipped_iff_of_outcomes ih]
          cases skipped with
          | zero => simp
          | succ skipped => simp [List.replicate_succ]
        use kept
        right
        use skipped + 1
        rw [List.map_cons, ih, ho, List.replicate_succ, List.cons_append]

/-! ### The lines of the open branches -/

/-- Whether a directive that is read in a state opens a chain on some others, or moves the chain on
them on to a further branch. -/
inductive Turns (s : State) (d : Directive) (below : List Frame) : Prop
  | opens (hd : d.kind = .branch .opening) (hs : s.stack = below)
  | moves {keyword : Keyword} {frame : Frame} (hd : d.kind = .branch keyword)
      (hk : keyword = .elif ∨ keyword = .otherwise) (hs : s.stack = frame :: below)
      (movable : frame.Movable)

/-- A chain that is open is neither opened nor moved on, unless it is the innermost one and can move
on. -/
theorem not_turns_of_suffix (h : frame :: below <:+ s.stack)
    (stuck : ∀ keyword, d.kind = .branch keyword → keyword = .elif ∨ keyword = .otherwise →
      ∀ top, s.stack = top :: below → ¬top.Movable) :
  ¬Turns s d below
  := by
  intro hturns
  cases hturns with
  | opens hd hs =>
      have := h.length_le
      rw [hs, List.length_cons] at this
      omega
  | moves hd hk hs movable => apply stuck _ hd hk _ hs movable

/-- Where the open branch of a chain comes from when a directive is read: it is that of the directive,
or the chain was open before and was neither opened nor moved on. -/
inductive Origin (s : State) (d : Directive) (frame : Frame) (below : List Frame) : Prop
  | turned (turns : Turns s d below) (hline : frame.line = d.line)
      (hd : d.kind = .branch frame.keyword)
  | kept (hopen : frame :: below <:+ s.stack) (turns : ¬Turns s d below)

/-- A chain that is opened comes from the directive just read, and the others stay as they are. -/
theorem origin_of_opened {next : Frame} (hd : d.kind = .branch .opening)
    (hkeyword : next.keyword = .opening) (hline : next.line = d.line)
    (h : frame :: below <:+ next :: s.stack) :
  Origin s d frame below
  := by
  rcases List.suffix_cons_iff.mp h with heq | hsuffix
  · obtain ⟨rfl, rfl⟩ := List.cons.inj heq
    apply Origin.turned (.opens hd rfl) hline
    rw [hd, hkeyword]
  · apply Origin.kept hsuffix
    apply not_turns_of_suffix hsuffix
    simp [hd]

/-- When the innermost chain moves on, its branch comes from the directive just read, and the other
chains stay as they are. -/
theorem origin_of_moved {top next : Frame} {outer : List Frame}
    (hd : d.kind = .branch next.keyword) (hk : next.keyword = .elif ∨ next.keyword = .otherwise)
    (hs : s.stack = top :: outer) (movable : top.Movable) (hline : next.line = d.line)
    (h : frame :: below <:+ next :: outer) :
  Origin s d frame below
  := by
  rcases List.suffix_cons_iff.mp h with heq | hsuffix
  · obtain ⟨rfl, rfl⟩ := List.cons.inj heq
    apply Origin.turned (.moves hd hk hs movable) hline hd
  · have hopen : frame :: below <:+ s.stack := by
      rw [hs]
      apply hsuffix.trans (List.suffix_cons top outer)
    apply Origin.kept hopen
    apply not_turns_of_suffix hopen
    intro _ _ _ top' hs' _
    -- the chain would lie inside itself
    rw [hs] at hs'
    obtain ⟨-, rfl⟩ := List.cons.inj hs'
    have := hsuffix.length_le
    rw [List.length_cons] at this
    omega

/-- A directive of a chain's end or of a switch neither opens a chain nor moves one on. -/
theorem origin_of_kept (h : frame :: below <:+ s.stack)
    (hd : ∀ keyword, d.kind = .branch keyword → keyword = .closing) :
  Origin s d frame below
  := by
  apply Origin.kept h
  apply not_turns_of_suffix h
  intro keyword hkeyword hk
  rw [hd keyword hkeyword] at hk
  simp at hk

theorem origin_of_apply (h : frame :: below <:+ (r.apply s d).stack) :
  Origin s d frame below
  := by
  have hstep := step_apply (r := r) s d
  generalize r.apply s d = t at hstep h
  cases hstep with
  | opened hd live => apply origin_of_opened hd rfl rfl h
  | skipped hd dead => apply origin_of_opened hd rfl rfl h
  | passed hd hk hs movable matched => apply origin_of_moved hd hk hs movable rfl h
  | tested hd hs movable matched => apply origin_of_moved hd (.inl rfl) hs movable rfl h
  | defaulted hd hs movable matched => apply origin_of_moved hd (.inr rfl) hs movable rfl h
  | unmoved hd hk stuck =>
      apply Origin.kept h
      apply not_turns_of_suffix h
      intro _ _ _ top hs
      apply stuck top below hs
  | closed hd hs =>
      apply origin_of_kept _ (by simp [hd])
      rw [hs]
      apply h.trans (List.suffix_cons _ _)
  | unclosed hd hs => apply origin_of_kept h (by simp [hd])
  | switched hd live off => apply origin_of_kept (s := s) h (by simp [hd])
  | unswitched hd idle => apply origin_of_kept h (by simp [hd])

variable (r) in
/-- Whether the open branch of a chain is that of a directive which opened the chain or moved it on,
and behind which the chain stayed open and was not moved on. -/
def Begins (ds : List Directive) (frame : Frame) (below : List Frame) : Prop :=
  ∃ pre d post, ds = pre ++ d :: post ∧ Turns (r.resolve pre) d below ∧ frame.line = d.line ∧
    d.kind = .branch frame.keyword ∧
    ∀ mid e rest, post = mid ++ e :: rest →
      frame :: below <:+ (r.resolve (pre ++ d :: mid)).stack ∧
        ¬Turns (r.resolve (pre ++ d :: mid)) e below

theorem resolve_concat (ds : List Directive) (d : Directive) :
  r.resolve (ds ++ [d]) = r.apply (r.resolve ds) d
  := by
  rw [resolve, run_append, run_cons, run_nil, resolve]

/-- Each open branch begins at the last directive that opened its chain or moved it on. -/
theorem begins_of_suffix (h : frame :: below <:+ (r.resolve ds).stack) :
  r.Begins ds frame below
  := by
  induction ds using List.reverseRecOn with
  | nil => simp [resolve] at h
  | append_singleton ds d ih =>
      rw [resolve_concat] at h
      cases origin_of_apply h with
      | turned turns hline hd =>
          use ds, d, []
          refine ⟨rfl, turns, hline, hd, ?_⟩
          intro mid e rest heq
          simp at heq
      | kept hopen hturns =>
          obtain ⟨pre, first, post, rfl, turns, hline, hfirst, later⟩ := ih hopen
          use pre, first, post ++ [d]
          refine ⟨by simp, turns, hline, hfirst, ?_⟩
          intro mid e rest heq
          -- the directive in question is the one just read, or one of those before it
          rcases List.eq_nil_or_concat rest with rfl | ⟨rest, last, rfl⟩
          · obtain ⟨rfl, hlast⟩ := List.append_inj' heq rfl
            obtain rfl := List.singleton_inj.mp hlast
            exact ⟨hopen, hturns⟩
          · rw [List.concat_eq_append, ← List.cons_append, ← List.append_assoc] at heq
            obtain ⟨rfl, -⟩ := List.append_inj' heq rfl
            apply later mid e rest rfl

/-! ### All states that are reached -/

/-- Whatever directives were read, the open chains have the levels from one on, the outermost one
first; their branches are kept, then at most one is dropped, and behind it all are skipped.  No branch
begins at an end; a chain is matched where its branch is kept or has no condition, and one that is
skipped has not left its first branch.  Each branch begins at the last directive that opened its chain
or moved it on. -/
theorem stack_resolve (r : Resolver) (ds : List Directive) :
  let s := r.resolve ds
  let frames := s.stack.reverse
  (frames.map Frame.level = List.range' 1 frames.length ∧ s.depth = frames.length) ∧
  (∃ kept, frames.map Frame.outcome = List.replicate kept .taken ∨
    ∃ skipped, frames.map Frame.outcome
      = List.replicate kept .taken ++ .dropped :: List.replicate skipped .skipped) ∧
  (∀ frame ∈ frames, frame.keyword ≠ .closing ∧
    (frame.outcome = .taken → frame.matched = true) ∧
    (frame.keyword = .otherwise → frame.matched = true) ∧
    (frame.outcome = .skipped → frame.keyword = .opening ∧ frame.matched = false)) ∧
  ∀ frame below, frame :: below <:+ s.stack → r.Begins ds frame below
  := by
  intro s frames
  have hstacked : Stacked s.stack := stacked_resolve ds
  refine ⟨⟨?_, ?_⟩, ?_, ?_, ?_⟩
  · rw [hstacked.levels, List.length_reverse]
  · rw [hstacked.depth_eq, List.length_reverse]
  · obtain ⟨kept, houtcomes | ⟨skipped, houtcomes⟩⟩ := hstacked.outcomes
    · use kept
      left
      rw [List.map_reverse, houtcomes, List.reverse_replicate]
    · use kept
      right
      use skipped
      rw [List.map_reverse, houtcomes]
      simp
  · intro frame hmem
    obtain ⟨below, hframe⟩ := hstacked.exists_fitsOn (List.mem_reverse.mp hmem)
    exact ⟨hframe.keyword, hframe.matched_of_taken, hframe.matched_of_otherwise,
      hframe.of_skipped⟩
  · intro frame below hopen
    apply begins_of_suffix hopen

end Resolver

end Prune
