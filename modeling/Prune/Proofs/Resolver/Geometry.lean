import Mathlib.Data.List.Basic
import Prune.Proofs.Resolver.Coverage

/-!
# The geometry of the ranges

How the ranges lie to each other that are emitted for directives sorted by line, well nested or not.
Each range is taken together with the directive that emits it (`emitted`).  A range ends at this
directive, or lies on its line and the next one if it belongs to a switch (`shaped_of_mem_emitted`),
and no range emitted later starts before the directive (`pairwise_emitted`): where a range was just
emitted, no branch that is dropped is open any more (`StartsFrom.of_emits`).  So ranges start in
order, and those of chains have no line in common but one at which the first ends and the second
starts (`ranges_resolve`).
-/

namespace Prune.Resolver

variable {r : Resolver} {s : State} {d : Directive} {ds : List Directive} {range : LineRange}
  {line : Nat}

variable (r) in
/-- The ranges that directives emit from a state on, in order, each with its directive. -/
def emitted (s : State) : List Directive → List (Directive × LineRange)
  | [] => []
  | d :: ds =>
    ((r.apply s d).ranges.drop s.ranges.length).map (d, ·) ++ emitted (r.apply s d) ds

/-- Whether a range is emitted by a directive of a chain, rather than of a switch. -/
def OfChain (p : Directive × LineRange) : Prop :=
  ∃ keyword, p.1.kind = .branch keyword

/-! ### The ranges that are emitted -/

theorem emitted_cons_of_emits (h : r.Emits s d range) (ds : List Directive) :
  r.emitted s (d :: ds) = (d, range) :: r.emitted (r.apply s d) ds
  := by
  rw [emitted, h]
  simp

theorem emitted_cons_of_same (h : (r.apply s d).ranges = s.ranges) (ds : List Directive) :
  r.emitted s (d :: ds) = r.emitted (r.apply s d) ds
  := by
  rw [emitted, h]
  simp

/-- The ranges of a run are those that its directives emit. -/
theorem ranges_run (s : State) (ds : List Directive) :
  (r.run s ds).ranges = s.ranges ++ (r.emitted s ds).map Prod.snd
  := by
  induction ds generalizing s with
  | nil => simp [emitted]
  | cons d ds ih =>
      rw [run_cons, ih]
      rcases ranges_apply_or_emits (r := r) s d with hsame | ⟨range, hemits⟩
      · rw [emitted_cons_of_same hsame, hsame]
      · rw [emitted_cons_of_emits hemits, hemits]
        simp

/-- A range that is emitted first, or one emitted behind it. -/
theorem mem_emitted_cons {p : Directive × LineRange} (h : p ∈ r.emitted s (d :: ds)) :
  (∃ range, p = (d, range) ∧ r.Emits s d range) ∨ p ∈ r.emitted (r.apply s d) ds
  := by
  rcases ranges_apply_or_emits (r := r) s d with hsame | ⟨range, hemits⟩
  · rw [emitted_cons_of_same hsame] at h
    exact .inr h
  · rw [emitted_cons_of_emits hemits] at h
    rcases List.mem_cons.mp h with rfl | h
    · exact .inl ⟨range, rfl, hemits⟩
    · exact .inr h

/-! ### The lines of a range -/

/-- Whether a range lies where its directive says: behind the start of a branch and up to the
directive that leaves it, or on the line of a switch and the next one. -/
structure Shaped (p : Directive × LineRange) : Prop where
  first_le : p.2.first ≤ p.1.line
  last_of_chain : OfChain p → p.2.last = p.1.line
  of_switch : ¬OfChain p → p.2 = ⟨p.1.line, p.1.line + 1⟩

theorem Shaped.of_emits (lines : ∀ frame ∈ s.stack, frame.line ≤ d.line)
    (h : r.Emits s d range) :
  Shaped (d, range)
  := by
  rcases emits_iff.mp h with ⟨frame, below, hs, dropped, leaves, rfl⟩ | ⟨name, hd, live, off, rfl⟩
  · have hchain : OfChain (d, ⟨frame.line, d.line⟩) := by
      rcases leaves with hd | ⟨hd | hd, -⟩
      · exact ⟨_, hd⟩
      · exact ⟨_, hd⟩
      · exact ⟨_, hd⟩
    constructor
    · apply lines frame
      simp [hs]
    · intro _
      rfl
    · intro hswitch
      contradiction
  · constructor
    · apply Nat.le_refl
    · rintro ⟨keyword, hkeyword⟩
      rw [hd] at hkeyword
      contradiction
    · intro _
      rfl

theorem shaped_of_mem_emitted (sorted : ds.Pairwise fun a b => a.line ≤ b.line)
    (lines : ∀ frame ∈ s.stack, ∀ d ∈ ds, frame.line ≤ d.line) :
  ∀ p ∈ r.emitted s ds, Shaped p
  := by
  induction sorted generalizing s with
  | nil => simp [emitted]
  | @cons d ds hd _ ih =>
      intro p hp
      rcases mem_emitted_cons hp with ⟨range, rfl, hemits⟩ | hp
      · apply Shaped.of_emits _ hemits
        intro frame hframe
        apply lines frame hframe d List.mem_cons_self
      · apply ih _ p hp
        apply (restack_apply s d).forall_mem (P := fun frame => ∀ e ∈ ds, frame.line ≤ e.line)
        · intro frame hframe e he
          apply lines frame hframe e (List.mem_cons_of_mem _ he)
        · intro frame hline
          rw [hline]
          exact hd

/-! ### Where later ranges start -/

/-- Whether no branch that is dropped starts before a line. -/
def StartsFrom (line : Nat) (stack : List Frame) : Prop :=
  ∀ frame ∈ stack, frame.outcome = .dropped → line ≤ frame.line

theorem StartsFrom.of_taken {stack : List Frame}
    (h : ∀ frame ∈ stack, frame.outcome = .taken) (line : Nat) :
  StartsFrom line stack
  := by
  intro frame hmem dropped
  rw [h frame hmem] at dropped
  contradiction

/-- A directive that leaves the innermost branch, which is not skipped, leaves the chains around it,
and perhaps a branch that starts on its line. -/
theorem startsFrom_of_leaves {frame : Frame} {below : List Frame} (hs : s.stack = frame :: below)
    (ho : frame.outcome ≠ .skipped) (leaves : Leaves d frame) (hbelow : StartsFrom d.line below) :
  StartsFrom d.line (r.apply s d).stack
  := by
  rcases leaves with hd | ⟨hd, hk⟩
  · rw [apply_eq_of_step (.closed hd hs)]
    exact hbelow
  · have hnext : ∃ next, (r.apply s d).stack = next :: below ∧ next.line = d.line := by
      rcases hd with hd | hd
      · obtain ⟨outcome, asked, happly⟩ := apply_of_movable (r := r) hd (.inl rfl) hs ⟨hk, ho⟩
        rw [happly]
        exact ⟨_, rfl, rfl⟩
      · obtain ⟨outcome, asked, happly⟩ := apply_of_movable (r := r) hd (.inr rfl) hs ⟨hk, ho⟩
        rw [happly]
        exact ⟨_, rfl, rfl⟩
    obtain ⟨next, hstack, hline⟩ := hnext
    rw [hstack]
    intro top hmem htop
    rcases List.mem_cons.mp hmem with rfl | hmem
    · apply Nat.le_of_eq hline.symm
    · apply hbelow top hmem htop

/-- Where a directive has just left a branch that was dropped, or stands where the code is kept, no
branch that is dropped starts before it. -/
theorem StartsFrom.of_emits (hn : Nested s.stack) (h : r.Emits s d range) :
  StartsFrom d.line (r.apply s d).stack
  := by
  rcases emits_iff.mp h with ⟨frame, below, hs, dropped, leaves, -⟩ | ⟨name, hd, live, off, -⟩
  · have ho : frame.outcome ≠ .skipped := by simp [dropped]
    apply startsFrom_of_leaves hs ho leaves
    rw [hs] at hn
    apply StartsFrom.of_taken
    apply outcome_eq_taken_of_nested hn ho
  · rw [apply_eq_of_step (.switched hd live off)]
    apply StartsFrom.of_taken (hn.outcome_eq_taken live)

/-- While directives from a line on are read, no range starts before the line if no branch that is
dropped does. -/
theorem first_of_mem_emitted (h : StartsFrom line s.stack) (behind : ∀ d ∈ ds, line ≤ d.line) :
  ∀ p ∈ r.emitted s ds, line ≤ p.2.first
  := by
  induction ds generalizing s with
  | nil => simp [emitted]
  | cons d ds ih =>
      obtain ⟨hd, behind⟩ := List.forall_mem_cons.mp behind
      intro p hp
      rcases mem_emitted_cons hp with ⟨range, rfl, hemits⟩ | hp
      · rcases emits_iff.mp hemits with ⟨frame, below, hs, dropped, -, rfl⟩ | ⟨name, -, -, -, rfl⟩
        · apply h frame _ dropped
          simp [hs]
        · exact hd
      · apply ih _ behind p hp
        apply (restack_apply s d).forall_mem h
        intro frame hline _
        rw [hline]
        exact hd

/-- No range starts before the directive of one that was emitted before it. -/
theorem pairwise_emitted (hn : Nested s.stack) (sorted : ds.Pairwise fun a b => a.line ≤ b.line) :
  (r.emitted s ds).Pairwise fun p q => p.1.line ≤ q.2.first
  := by
  induction sorted generalizing s with
  | nil => exact .nil
  | @cons d ds hd _ ih =>
      have hrest := @ih (r.apply s d) (hn.restack (restack_apply s d))
      rcases ranges_apply_or_emits (r := r) s d with hsame | ⟨range, hemits⟩
      · rw [emitted_cons_of_same hsame]
        exact hrest
      · rw [emitted_cons_of_emits hemits]
        apply List.pairwise_cons.mpr
        constructor
        · apply first_of_mem_emitted (.of_emits hn hemits) hd
        · exact hrest

/-! ### The ranges of sorted directives -/

theorem Shaped.first_le_last {p : Directive × LineRange} (h : Shaped p) :
  p.2.first ≤ p.2.last
  := by
  by_cases hchain : OfChain p
  · rw [h.last_of_chain hchain]
    apply h.first_le
  · rw [h.of_switch hchain]
    apply Nat.le_succ

/-- A range of a chain has no line in common with one that starts behind its directive, but for that
of the directive. -/
theorem Shaped.line_eq {p q : Directive × LineRange} (hp : Shaped p) (hchain : OfChain p)
    (h : p.1.line ≤ q.2.first) (hline : p.2.contains line line = true)
    (hline' : q.2.contains line line = true) :
  line = p.2.last ∧ line = q.2.first
  := by
  have hlast := hp.last_of_chain hchain
  simp only [LineRange.contains, Bool.and_eq_true, decide_eq_true_eq] at hline hline'
  omega

/-- A range of a switch has the line of the switch and the next one. -/
theorem Shaped.line_eq_or {p : Directive × LineRange} (hp : Shaped p) (hswitch : ¬OfChain p)
    (hline : p.2.contains line line = true) :
  line = p.1.line ∨ line = p.1.line + 1
  := by
  rw [hp.of_switch hswitch] at hline
  simp only [LineRange.contains, Bool.and_eq_true, decide_eq_true_eq] at hline
  omega

/-- Of directives sorted by line, the ranges start in order, and none ends before its start.  Of two
ranges that belong to chains the second starts where the first ends or behind it, and they have no
other line in common.  A range that belongs to a switch has the line of the switch and the next one,
and so no others in common with a range of a chain that is emitted later. -/
theorem ranges_resolve (r : Resolver) {ds : List Directive}
    (sorted : ds.Pairwise fun a b => a.line ≤ b.line) :
  let emitted := r.emitted {} ds
  (r.resolve ds).ranges = emitted.map Prod.snd ∧
  (∀ range ∈ (r.resolve ds).ranges, range.first ≤ range.last) ∧
  ((r.resolve ds).ranges.Pairwise fun a b => a.first ≤ b.first) ∧
  (emitted.Pairwise fun p q => OfChain p → OfChain q → p.2.last ≤ q.2.first ∧
    ∀ line, p.2.contains line line = true → q.2.contains line line = true →
      line = p.2.last ∧ line = q.2.first) ∧
  (∀ p ∈ emitted, ¬OfChain p → p.2 = ⟨p.1.line, p.1.line + 1⟩) ∧
  emitted.Pairwise fun p q => ¬OfChain p → OfChain q →
    ∀ line, p.2.contains line line = true → q.2.contains line line = true →
      line = p.1.line ∨ line = p.1.line + 1
  := by
  intro emitted
  have hranges : (r.resolve ds).ranges = emitted.map Prod.snd := ranges_run {} ds
  have hshaped : ∀ p ∈ emitted, Shaped p := shaped_of_mem_emitted sorted (by simp)
  have hlater : emitted.Pairwise fun p q => p.1.line ≤ q.2.first :=
    pairwise_emitted List.Pairwise.nil sorted
  rw [hranges]
  refine ⟨rfl, ?_, ?_, ?_, ?_, ?_⟩
  · intro range hmem
    obtain ⟨p, hp, rfl⟩ := List.mem_map.mp hmem
    apply (hshaped p hp).first_le_last
  · rw [List.pairwise_map]
    apply hlater.imp_of_mem
    intro p q hp _ h
    apply Nat.le_trans (hshaped p hp).first_le h
  · apply hlater.imp_of_mem
    intro p q hp _ h hchain _
    constructor
    · rw [(hshaped p hp).last_of_chain hchain]
      exact h
    · intro line hline hline'
      apply (hshaped p hp).line_eq hchain h hline hline'
  · intro p hp hswitch
    apply (hshaped p hp).of_switch hswitch
  · apply hlater.imp_of_mem
    intro p q hp _ _ hswitch _ line hline _
    apply (hshaped p hp).line_eq_or hswitch hline

/-- A switch on the first line of a chain that is kept, and two branches of the chain that are
dropped, with a stray directive behind them. -/
theorem ranges_resolve_switch :
  let r : Resolver := { switches := [("debug", false)], holds := fun condition => condition == "A" }
  let ds : List Directive :=
    [⟨.branch .opening, some "A", 1⟩, ⟨.switch "debug", none, 1⟩, ⟨.branch .elif, some "B", 2⟩,
      ⟨.branch .otherwise, none, 4⟩, ⟨.branch .otherwise, none, 5⟩, ⟨.branch .closing, none, 6⟩]
  (ds.Pairwise fun a b => a.line ≤ b.line) ∧
    (r.resolve ds).ranges = [⟨1, 2⟩, ⟨2, 4⟩, ⟨4, 6⟩] ∧
    ((r.resolve ds).ranges.Pairwise fun a b => a.first ≤ b.first)
  := by
  intro r ds
  have sorted : ds.Pairwise fun a b => a.line ≤ b.line := by decide
  refine ⟨sorted, by decide +kernel, ?_⟩
  apply (ranges_resolve r sorted).2.2.1

end Prune.Resolver
