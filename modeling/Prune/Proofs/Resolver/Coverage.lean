import Mathlib.Data.List.Basic
import Prune.Proofs.Resolver.Stack

/-!
# The lines that are covered

Which lines the ranges of a list of directives cover, whether the directives are well nested or not.
A range is emitted by a directive that leaves a branch that is dropped, or by a switch that is off
where the code is kept (`emits_iff`), and the ranges of a run are those that its directives emit
(`mem_ranges_run_iff`).

For directives that are sorted by line, a line without directives is covered just when a branch that
is dropped is open on it and is left later on (`LeftLater`), or when the line before it holds a
switch that is off where the code is kept (`SwitchedOff`).
-/

namespace Prune.Resolver

variable {r : Resolver}

/-- Whether a directive that is read while a chain is the innermost one leaves its open branch. -/
def Leaves (d : Directive) (frame : Frame) : Prop :=
  d.kind = .branch .closing ∨
    (d.kind = .branch .elif ∨ d.kind = .branch .otherwise) ∧
      (frame.keyword = .opening ∨ frame.keyword = .elif)

variable (r) in
/-- Whether a directive emits a range in a state. -/
def Emits (s : State) (d : Directive) (range : LineRange) : Prop :=
  (r.apply s d).ranges = s.ranges ++ [range]

/-! ### The ranges of a step -/

/-- Leaving a branch emits its lines if it is dropped. -/
theorem leave_ranges_of_dropped {frame : Frame} (dropped : frame.outcome = .dropped) (line : Nat) :
  (frame.leave line).ranges = [⟨frame.line, line⟩]
  := by
  rw [Frame.leave, if_pos dropped]
  rfl

/-- Leaving a branch emits nothing if it is not dropped. -/
theorem leave_ranges_of_not_dropped {frame : Frame} (h : frame.outcome ≠ .dropped) (line : Nat) :
  (frame.leave line).ranges = []
  := by
  rw [Frame.leave, if_neg h]
  rfl

theorem leaves_of_movable {d : Directive} {frame : Frame} {keyword : Keyword}
    (hd : d.kind = .branch keyword) (hk : keyword = .elif ∨ keyword = .otherwise)
    (movable : frame.Movable) :
  Leaves d frame
  := by
  right
  refine ⟨?_, movable.1⟩
  rcases hk with rfl | rfl
  · exact .inl hd
  · exact .inr hd

/-- A branch that is dropped is left by a directive that leaves it, and its lines are emitted. -/
theorem emits_of_leaves {s : State} {d : Directive} {frame : Frame} {below : List Frame}
    (hs : s.stack = frame :: below) (dropped : frame.outcome = .dropped) (h : Leaves d frame) :
  r.Emits s d ⟨frame.line, d.line⟩
  := by
  have hleave := leave_ranges_of_dropped dropped d.line
  rw [Emits]
  rcases h with hd | ⟨hd, hk⟩
  · rw [apply_eq_of_step (.closed hd hs), State.add_ranges, hleave]
  · have movable : frame.Movable := ⟨hk, by simp [dropped]⟩
    rcases hd with hd | hd
    · obtain ⟨outcome, asked, happly⟩ := apply_of_movable (r := r) hd (.inl rfl) hs movable
      rw [happly, State.add_ranges, hleave]
    · obtain ⟨outcome, asked, happly⟩ := apply_of_movable (r := r) hd (.inr rfl) hs movable
      rw [happly, State.add_ranges, hleave]

/-- A directive that adds nothing but what it emits on leaving the innermost branch. -/
theorem ranges_of_leaves {s t : State} {d : Directive} {frame : Frame} {below : List Frame}
    (hs : s.stack = frame :: below) (leaves : Leaves d frame)
    (ht : t.ranges = s.ranges ++ (frame.leave d.line).ranges) :
  t.ranges = s.ranges ∨
    ∃ frame below, s.stack = frame :: below ∧ frame.outcome = .dropped ∧ Leaves d frame
  := by
  by_cases dropped : frame.outcome = .dropped
  · exact .inr ⟨frame, below, hs, dropped, leaves⟩
  · rw [leave_ranges_of_not_dropped dropped, List.append_nil] at ht
    exact .inl ht

/-- A directive emits nothing unless it leaves a branch that is dropped, or belongs to a switch that
is off where the code is kept. -/
theorem ranges_apply (s : State) (d : Directive) :
  (r.apply s d).ranges = s.ranges ∨
    (∃ frame below, s.stack = frame :: below ∧ frame.outcome = .dropped ∧ Leaves d frame) ∨
    (∃ name, d.kind = .switch name ∧ s.outcome = .taken ∧ r.switches.flag? name = some false)
  := by
  have hstep := step_apply (r := r) s d
  generalize r.apply s d = t at hstep ⊢
  rw [← or_assoc]
  cases hstep with
  | opened hd live => exact .inl (.inl (by simp [Effect.ask]))
  | skipped hd dead => exact .inl (.inl rfl)
  | passed hd hk hs movable matched =>
      left
      apply ranges_of_leaves hs (leaves_of_movable hd hk movable) rfl
  | tested hd hs movable matched =>
      left
      apply ranges_of_leaves hs (leaves_of_movable hd (.inl rfl) movable)
      simp [Effect.append_def, Effect.ask]
  | defaulted hd hs movable matched =>
      left
      apply ranges_of_leaves hs (leaves_of_movable hd (.inr rfl) movable) rfl
  | unmoved hd hk stuck => exact .inl (.inl rfl)
  | closed hd hs =>
      left
      apply ranges_of_leaves hs (.inl hd) rfl
  | unclosed hd hs => exact .inl (.inl rfl)
  | @switched name hd live off => exact .inr ⟨name, hd, live, off⟩
  | unswitched hd idle => exact .inl (.inl rfl)

theorem emits_of_switch {s : State} {d : Directive} {name : String}
    (hd : d.kind = .switch name) (live : s.outcome = .taken)
    (off : r.switches.flag? name = some false) :
  r.Emits s d ⟨d.line, d.line + 1⟩
  := by
  rw [Emits, apply_eq_of_step (.switched hd live off)]
  rfl

/-- A directive emits at most one range in a state. -/
theorem Emits.unique {s : State} {d : Directive} {range range' : LineRange}
    (h : r.Emits s d range) (h' : r.Emits s d range') :
  range = range'
  := by
  rw [Emits] at h h'
  rw [h] at h'
  simpa using h'

/-- A range is emitted by a directive that leaves a branch that is dropped, or by a switch that is
off where the code is kept. -/
theorem emits_iff {s : State} {d : Directive} {range : LineRange} :
  r.Emits s d range ↔
    (∃ frame below, s.stack = frame :: below ∧ frame.outcome = .dropped ∧ Leaves d frame ∧
      range = ⟨frame.line, d.line⟩) ∨
    (∃ name, d.kind = .switch name ∧ s.outcome = .taken ∧ r.switches.flag? name = some false ∧
      range = ⟨d.line, d.line + 1⟩)
  := by
  constructor
  · intro h
    rcases ranges_apply (r := r) s d with
      hsame | ⟨frame, below, hs, dropped, leaves⟩ | ⟨name, hd, live, off⟩
    · rw [Emits, hsame] at h
      simp at h
    · have hrange := h.unique (emits_of_leaves hs dropped leaves)
      exact .inl ⟨frame, below, hs, dropped, leaves, hrange⟩
    · have hrange := h.unique (emits_of_switch hd live off)
      exact .inr ⟨name, hd, live, off, hrange⟩
  · rintro (⟨frame, below, hs, dropped, leaves, rfl⟩ | ⟨name, hd, live, off, rfl⟩)
    · apply emits_of_leaves hs dropped leaves
    · apply emits_of_switch hd live off

/-- A directive adds no range but one that it emits. -/
theorem ranges_apply_or_emits (s : State) (d : Directive) :
  (r.apply s d).ranges = s.ranges ∨ ∃ range, r.Emits s d range
  := by
  rcases ranges_apply (r := r) s d with
    hsame | ⟨frame, below, hs, dropped, leaves⟩ | ⟨name, hd, live, off⟩
  · exact .inl hsame
  · exact .inr ⟨_, emits_of_leaves hs dropped leaves⟩
  · exact .inr ⟨_, emits_of_switch hd live off⟩

/-! ### The ranges of a run -/

theorem mem_ranges_apply_iff {s : State} {d : Directive} {range : LineRange} :
  range ∈ (r.apply s d).ranges ↔ range ∈ s.ranges ∨ r.Emits s d range
  := by
  rcases ranges_apply_or_emits (r := r) s d with hsame | ⟨range', hrange'⟩
  · have hnone : ¬ r.Emits s d range := by
      simp [Emits, hsame]
    rw [hsame]
    simp [hnone]
  · have hiff : r.Emits s d range ↔ range = range' := by
      constructor
      · intro hrange
        apply hrange.unique hrange'
      · rintro rfl
        exact hrange'
    rw [hiff]
    rw [Emits] at hrange'
    rw [hrange', List.mem_append, List.mem_singleton]

/-- The ranges of a run are those of the state it starts in, and those that its directives emit. -/
theorem mem_ranges_run_iff {s : State} {ds : List Directive} {range : LineRange} :
  range ∈ (r.run s ds).ranges ↔
    range ∈ s.ranges ∨ ∃ pre d post, ds = pre ++ d :: post ∧ r.Emits (r.run s pre) d range
  := by
  induction ds generalizing s with
  | nil => simp
  | cons d ds ih =>
      rw [run_cons, ih, mem_ranges_apply_iff]
      constructor
      · rintro ((h | h) | ⟨pre, e, post, rfl, h⟩)
        · exact .inl h
        · exact .inr ⟨[], d, ds, rfl, h⟩
        · exact .inr ⟨d :: pre, e, post, rfl, h⟩
      · rintro (h | ⟨pre, e, post, heq, h⟩)
        · exact .inl (.inl h)
        · cases pre with
          | nil =>
              obtain ⟨rfl, rfl⟩ := List.cons.inj heq
              exact .inl (.inr h)
          | cons d' pre =>
              obtain ⟨rfl, rfl⟩ := List.cons.inj heq
              exact .inr ⟨pre, e, post, rfl, h⟩

/-! ### The lines of a run -/

/-- The directives before a line. -/
def before (line : Nat) (ds : List Directive) : List Directive :=
  ds.filter fun d => d.line < line

/-- The directives behind a line. -/
def behind (line : Nat) (ds : List Directive) : List Directive :=
  ds.filter fun d => line < d.line

variable (r) in
/-- Whether a branch that is dropped is open in a state and is left by one of the directives that
follow. -/
def LeftLater (s : State) (ds : List Directive) : Prop :=
  ∃ frame below, frame :: below <:+ s.stack ∧ frame.outcome = .dropped ∧
    ∃ pre d post, ds = pre ++ d :: post ∧ (r.run s pre).stack = frame :: below ∧ Leaves d frame

variable (r) in
/-- Whether the line before the given one holds a switch that is off where the code is kept. -/
def SwitchedOff (ds : List Directive) (line : Nat) : Prop :=
  ∃ pre d post name, ds = pre ++ d :: post ∧ d.kind = .switch name ∧ line = d.line + 1 ∧
    r.switches.flag? name = some false ∧ (r.resolve pre).outcome = .taken

theorem line_lt_of_mem_before {line : Nat} {ds : List Directive} {d : Directive}
    (h : d ∈ before line ds) :
  d.line < line
  := by
  simpa using (List.mem_filter.mp h).2

theorem lt_line_of_mem_behind {line : Nat} {ds : List Directive} {d : Directive}
    (h : d ∈ behind line ds) :
  line < d.line
  := by
  simpa using (List.mem_filter.mp h).2

/-- A line without directives divides sorted directives into those before and those behind it. -/
theorem before_append_behind {line : Nat} {ds : List Directive}
    (sorted : ds.Pairwise fun a b => a.line ≤ b.line) (free : ∀ d ∈ ds, d.line ≠ line) :
  before line ds ++ behind line ds = ds
  := by
  induction sorted with
  | nil => rfl
  | @cons d ds hd _ ih =>
      have ih := ih fun e he => free e (List.mem_cons_of_mem _ he)
      have hne := free d List.mem_cons_self
      by_cases hlt : d.line < line
      · have hgt : ¬ line < d.line := by omega
        simpa [before, behind, hlt, hgt] using ih
      · have hgt : line < d.line := by omega
        have hnone : before line ds = [] := by
          apply List.filter_eq_nil_iff.mpr
          intro e he
          have := hd e he
          simp
          omega
        rw [hnone, List.nil_append] at ih
        rw [before, behind, List.filter_cons_of_neg (by simpa using hlt),
          List.filter_cons_of_pos (by simpa using hgt)]
        change before line ds ++ d :: behind line ds = d :: ds
        rw [hnone, ih, List.nil_append]

/-- A directive behind a line is one of those behind the line, wherever it stands in the list. -/
theorem split_behind {line : Nat} {ds pre post : List Directive} {d : Directive}
    (sorted : ds.Pairwise fun a b => a.line ≤ b.line) (free : ∀ d ∈ ds, d.line ≠ line)
    (heq : ds = pre ++ d :: post) (hd : line < d.line) :
  ∃ mid, pre = before line ds ++ mid ∧ behind line ds = mid ++ d :: post
  := by
  have hsplit := before_append_behind sorted free
  nth_rewrite 3 [heq] at hsplit
  rcases List.append_eq_append_iff.mp hsplit with ⟨mid, hpre, hbehind⟩ | ⟨mid, hbefore, hpost⟩
  · exact ⟨mid, hpre, hbehind⟩
  · cases mid with
    | nil =>
        use []
        simp only [List.append_nil, List.nil_append] at hbefore hpost ⊢
        exact ⟨hbefore.symm, hpost.symm⟩
    | cons e mid =>
        obtain ⟨rfl, -⟩ := List.cons.inj hpost
        have hmem : d ∈ before line ds := by
          rw [hbefore]
          simp
        have := line_lt_of_mem_before hmem
        omega

/-- If the range of a branch covers a line without directives, the branch is open on the line. -/
theorem leftLater_of_covers {line : Nat} {ds pre post : List Directive} {d : Directive}
    {frame : Frame} {below : List Frame}
    (sorted : ds.Pairwise fun a b => a.line ≤ b.line) (free : ∀ d ∈ ds, d.line ≠ line)
    (heq : ds = pre ++ d :: post) (hs : (r.resolve pre).stack = frame :: below)
    (dropped : frame.outcome = .dropped) (leaves : Leaves d frame)
    (hfirst : frame.line ≤ line) (hlast : line ≤ d.line) :
  r.LeftLater (r.resolve (before line ds)) (behind line ds)
  := by
  have hne : d.line ≠ line := by
    apply free d
    rw [heq]
    simp
  obtain ⟨mid, rfl, hbehind⟩ := split_behind sorted free heq (by omega)
  rw [resolve, run_append] at hs
  have hmid : ∀ e ∈ mid, line < e.line := by
    intro e he
    have hmem : e ∈ behind line ds := by
      rw [hbehind]
      apply List.mem_append_left _ he
    apply lt_line_of_mem_behind hmem
  have hfresh := fresh_run (r := r) hmid (r.run {} (before line ds))
  rw [hs] at hfresh
  exact ⟨frame, below, suffix_of_fresh hfresh hfirst, dropped, mid, d, post, hbehind, hs, leaves⟩

/-- The range of a branch that is open on a line and left later on covers the line. -/
theorem exists_covers_of_leftLater {line : Nat} {ds : List Directive}
    (sorted : ds.Pairwise fun a b => a.line ≤ b.line) (free : ∀ d ∈ ds, d.line ≠ line)
    (h : r.LeftLater (r.resolve (before line ds)) (behind line ds)) :
  ∃ range ∈ (r.resolve ds).ranges, range.contains line line = true
  := by
  obtain ⟨frame, below, hsuffix, dropped, mid, d, post, hbehind, hs, leaves⟩ := h
  have hfirst : frame.line < line := by
    apply line_lt_of_mem_resolve _ frame (hsuffix.subset List.mem_cons_self)
    intro e he
    apply line_lt_of_mem_before he
  have hlast : line < d.line := by
    have hmem : d ∈ behind line ds := by
      rw [hbehind]
      simp
    apply lt_line_of_mem_behind hmem
  use ⟨frame.line, d.line⟩
  constructor
  · rw [resolve, mem_ranges_run_iff]
    right
    use before line ds ++ mid, d, post
    constructor
    · rw [List.append_assoc, ← hbehind, before_append_behind sorted free]
    · rw [run_append]
      apply emits_of_leaves hs dropped leaves
  · simp [LineRange.contains]
    omega

/-- For directives sorted by line, a line without directives is covered just when a branch that is
dropped is open on it and left later on, or when the line before it holds a switch that is off where
the code is kept.  Where the code is kept, no range of a branch covers the line. -/
theorem covered_iff (r : Resolver) {ds : List Directive}
    (sorted : ds.Pairwise fun a b => a.line ≤ b.line) {line : Nat}
    (free : ∀ d ∈ ds, d.line ≠ line) :
  (LineRange.anyContains (r.resolve ds).ranges line line = true ↔
    r.LeftLater (r.resolve (before line ds)) (behind line ds) ∨ r.SwitchedOff ds line) ∧
  ((r.resolve (before line ds)).outcome = .taken →
    ∀ pre d post keyword range, ds = pre ++ d :: post → d.kind = .branch keyword →
      r.Emits (r.resolve pre) d range → range.contains line line = false)
  := by
  constructor
  · rw [LineRange.anyContains, List.any_eq_true]
    constructor
    · rintro ⟨range, hrange, hcontains⟩
      rw [resolve, mem_ranges_run_iff] at hrange
      obtain ⟨pre, d, post, heq, hemits⟩ := hrange.resolve_left (by simp)
      simp only [LineRange.contains, Bool.and_eq_true, decide_eq_true_eq] at hcontains
      rcases emits_iff.mp hemits with
        ⟨frame, below, hs, dropped, leaves, rfl⟩ | ⟨name, hd, live, off, rfl⟩
      · left
        apply leftLater_of_covers sorted free heq hs dropped leaves hcontains.1 hcontains.2
      · right
        have hne : d.line ≠ line := by
          apply free d
          rw [heq]
          simp
        have hline : line = d.line + 1 := by
          simp only at hcontains
          omega
        exact ⟨pre, d, post, name, heq, hd, hline, off, live⟩
    · rintro (h | ⟨pre, d, post, name, heq, hd, hline, off, live⟩)
      · apply exists_covers_of_leftLater sorted free h
      · use ⟨d.line, d.line + 1⟩
        constructor
        · rw [resolve, mem_ranges_run_iff]
          right
          use pre, d, post, heq
          apply emits_of_switch hd live off
        · simp [LineRange.contains, hline]
  · intro live pre d post keyword range heq hd hemits
    by_contra hcontains
    simp only [LineRange.contains, Bool.not_eq_false, Bool.and_eq_true,
      decide_eq_true_eq] at hcontains
    rcases emits_iff.mp hemits with
      ⟨frame, below, hs, dropped, leaves, rfl⟩ | ⟨name, hswitch, -⟩
    · obtain ⟨frame, below, hsuffix, hdropped, -⟩ :=
        leftLater_of_covers sorted free heq hs dropped leaves hcontains.1 hcontains.2
      have htaken := (nested_resolve _).outcome_eq_taken live frame (hsuffix.subset List.mem_cons_self)
      rw [htaken] at hdropped
      contradiction
    · rw [hd] at hswitch
      contradiction

/-- Directives of which the first and the fourth are strays: the third line is covered because the
chain around it goes on. -/
theorem covered_iff_strays :
  let r : Resolver := { switches := [], holds := fun _ => false }
  let ds : List Directive :=
    [⟨.branch .closing, none, 1⟩, ⟨.branch .opening, some "A", 2⟩, ⟨.branch .otherwise, none, 4⟩,
      ⟨.branch .otherwise, none, 6⟩]
  (ds.Pairwise fun a b => a.line ≤ b.line) ∧ (∀ d ∈ ds, d.line ≠ 3) ∧
    LineRange.anyContains (r.resolve ds).ranges 3 3 = true ∧
    (r.LeftLater (r.resolve (before 3 ds)) (behind 3 ds) ∨ r.SwitchedOff ds 3)
  := by
  intro r ds
  have sorted : ds.Pairwise fun a b => a.line ≤ b.line := by decide
  have free : ∀ d ∈ ds, d.line ≠ 3 := by decide
  have covered : LineRange.anyContains (r.resolve ds).ranges 3 3 = true := by decide
  refine ⟨sorted, free, covered, ?_⟩
  apply (covered_iff r sorted free).1.mp covered

end Prune.Resolver
