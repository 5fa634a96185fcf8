import Mathlib.Data.List.Basic
import Prune.Proofs.Program.Output
import Prune.Proofs.Resolver.Coverage
import Prune.Proofs.Resolver.Nesting

/-!
# Well nested programs

A program is well nested (`Program.Nested`) if the directives in each of its compound statements and
lists form a block of chains that are closed there, and no switch that is off stands in front of a
statement of several lines or of the end of a list.  Then no range cuts through it
(`Program.Nested.whole`): a chain in a compound statement emits ranges that start and end in it, and
one outside starts and ends outside.
-/

namespace Prune

open Text Source

namespace Program

variable {p : Program} {r : Resolver} {s : Resolver.State} {line : Nat}
  {x : LineRange} {ranges : List LineRange} {o : Options}

/-! ### Ranges -/

theorem whole_iff (p : Program) (line : Nat) :
  p.Whole ranges line ↔ ∀ x ∈ ranges, p.Whole [x] line
  := by
  induction p generalizing line with
  | nil => simp [Whole]
  | blank indent next ih => exact ih _
  | remark indent r next ih => exact ih _
  | phrase indent s next ih =>
      simp only [Whole, ih, List.mem_singleton, forall_eq, ← forall_and]
  | compound indent f body foot next ihbody ih =>
      simp only [Whole, ihbody, ih, List.mem_singleton, forall_eq, ← forall_and]
  | listing indent f cells next ih =>
      simp only [Whole, ih, List.mem_singleton, forall_eq, ← forall_and]

/-- A range that starts or ends on no line of a program does not cut through it. -/
theorem whole_of_outside (p : Program) (hstart : x.first < line ∨ line + feeds p.text ≤ x.first)
    (hend : x.last < line ∨ line + feeds p.text ≤ x.last) :
  p.Whole [x] line
  := by
  have hcontains (a b : Nat) : x.contains a b = true ↔ x.first ≤ a ∧ b ≤ x.last := by
    simp [LineRange.contains]
  induction p generalizing line with
  | nil => trivial
  | blank indent next ih =>
      simp only [Program.text, feeds_append, feeds_feed] at hstart hend
      apply ih <;> omega
  | remark indent r next ih =>
      simp only [Program.text, feeds_append, feeds_feed] at hstart hend
      apply ih <;> omega
  | phrase indent s next ih =>
      simp only [Program.text, feeds_append, feeds_feed] at hstart hend
      simp only [Whole, List.mem_singleton, forall_eq, hcontains]
      exact ⟨by omega, ih (by omega) (by omega)⟩
  | compound indent f body foot next ihbody ih =>
      simp only [Program.text, feeds_append, feeds_feed] at hstart hend
      simp only [Whole, List.mem_singleton, forall_eq, hcontains]
      exact ⟨by omega, ihbody (by omega) (by omega), ih (by omega) (by omega)⟩
  | listing indent f cells next ih =>
      simp only [Program.text, Compound.code, feeds_append, feeds_feed] at hstart hend
      simp only [Whole, List.mem_singleton, forall_eq, hcontains]
      exact ⟨by omega, ih (by omega) (by omega)⟩

/-! ### Directives -/


/-- The directives in comments that start on lines. -/
def directivesIn (remarks : List (String × Nat)) : List Directive :=
  remarks.filterMap fun c => Directive.parse c.1 c.2

/-- The directives of a program that starts on a line. -/
def directives (line : Nat) (p : Program) : List Directive :=
  directivesIn (p.remarks line)

theorem line_of_parse {text : String} {d : Directive} (h : Directive.parse text line = some d) :
  d.line = line
  := by
  rw [Directive.parse_eq_map] at h
  obtain ⟨d', -, rfl⟩ := Option.map_eq_some_iff.mp h
  rfl

/-- The comments in a list start on its lines, in order. -/
theorem remarks_bounds_cells (cells : Cells) (line : Nat) :
  (∀ c ∈ cells.remarks line, line ≤ c.2 ∧ c.2 ≤ line + feeds cells.text) ∧
    (cells.remarks line).Pairwise fun a b => a.2 ≤ b.2
  := by
  constructor
  · intro c hc
    obtain ⟨k, -, rfl⟩ := List.mem_map.mp hc
    have := feeds_takeBytes_le k.span.lo cells.text
    simp only
    omega
  · rw [Cells.remarks, List.pairwise_map]
    apply (Row.pairwise_comments _ _).imp_of_mem
    intro k k' hk _ hle
    have hlt := (Cells.comments_bounds hk).2.1
    apply Nat.add_le_add_left
    exact feeds_takeBytes_mono (by omega) _

/-- The comments of a program start on its lines, in order. -/
theorem remarks_bounds (p : Program) (line : Nat) :
  (∀ c ∈ p.remarks line, line ≤ c.2 ∧ c.2 < line + feeds p.text) ∧
    (p.remarks line).Pairwise fun a b => a.2 ≤ b.2
  := by
  induction p generalizing line with
  | nil => simp [remarks]
  | blank indent next ih =>
      obtain ⟨hbounds, hordered⟩ := ih (line + 1)
      simp only [Program.text, feeds_append, feeds_feed]
      refine ⟨fun c hc => ?_, hordered⟩
      have := hbounds c hc
      omega
  | remark indent r next ih =>
      obtain ⟨hbounds, hordered⟩ := ih (line + feeds r.code + 1)
      simp only [Program.text, feeds_append, feeds_feed]
      constructor
      · intro c hc
        obtain rfl | hc := List.mem_cons.mp hc
        · simp only
          omega
        · have := hbounds c hc
          omega
      · refine List.pairwise_cons.mpr ⟨fun c hc => ?_, hordered⟩
        have := hbounds c hc
        simp only
        omega
  | phrase indent s next ih =>
      obtain ⟨hbounds, hordered⟩ := ih (line + feeds s.code + 1)
      simp only [Program.text, feeds_append, feeds_feed]
      refine ⟨fun c hc => ?_, hordered⟩
      have := hbounds c hc
      omega
  | compound indent f body foot next ihbody ih =>
      obtain ⟨hbody, hordered⟩ := ihbody (line + feeds f.front + 1)
      obtain ⟨hnext, hordered'⟩ :=
        ih (line + feeds f.front + 1 + feeds body.text + feeds f.back + 1)
      simp only [Program.text, feeds_append, feeds_feed]
      constructor
      · intro c hc
        obtain hc | hc := List.mem_append.mp hc
        · have := hbody c hc
          omega
        · have := hnext c hc
          omega
      · refine List.pairwise_append.mpr ⟨hordered, hordered', fun c hc d hd => ?_⟩
        have := hbody c hc
        have := hnext d hd
        omega
  | listing indent f cells next ih =>
      obtain ⟨hcells, hordered⟩ := remarks_bounds_cells cells (line + feeds f.front)
      obtain ⟨hnext, hordered'⟩ := ih (line + feeds f.front + feeds cells.text + feeds f.back + 1)
      simp only [Program.text, Compound.code, feeds_append, feeds_feed]
      constructor
      · intro c hc
        obtain hc | hc := List.mem_append.mp hc
        · have := hcells c hc
          omega
        · have := hnext c hc
          omega
      · refine List.pairwise_append.mpr ⟨hordered, hordered', fun c hc d hd => ?_⟩
        have := hcells c hc
        have := hnext d hd
        omega

theorem collectDirectives_remarks (p : Program) (line : Nat) :
  collectDirectives (p.remarks line) = p.directives line
  := by
  apply sortBy_of_pairwise
  apply List.Pairwise.filterMap _ _ (p.remarks_bounds line).2
  intro c c' hle d hd d' hd'
  rw [line_of_parse hd, line_of_parse hd', decide_eq_true_eq]
  exact hle

theorem ranges_eq_resolve (p : Program) (o : Options) :
  p.ranges o = (o.resolver.resolve (p.directives 1)).ranges
  := by
  rw [Program.ranges, collectDirectives_remarks]

/-! ### Nesting -/

/-- Whether a directive is that of a switch that is off. -/
def IsOff (switches : Switches) (d : Directive) : Prop :=
  ∃ name, d.kind = .switch name ∧ switches.flag? name = some false

/-- Whether what stands on the first line of a program stands on no other. -/
def Short : Program → Prop
  | blank _ _ | remark _ _ _ => True
  | phrase _ s _ => feeds s.code = 0
  | listing _ f cells _ => feeds (f.code cells) = 0
  | nil | compound _ _ _ _ _ => False

/-- Whether directives stand behind a line and in front of another, and so does the line behind each
switch that is off. -/
def Between (switches : Switches) (first last : Nat) (ds : List Directive) : Prop :=
  ∀ d ∈ ds, first < d.line ∧ d.line < last ∧ (IsOff switches d → d.line + 1 < last)

/-- Whether the directives in each compound statement and in each list are well nested among
themselves, those of a list on lines of their own, and a switch that is off stands in front of what
stands on one line. -/
def Nested (switches : Switches) (line : Nat) : Program → Prop
  | nil => True
  | blank _ next => next.Nested switches (line + 1)
  | remark _ r next =>
    (∀ d, Directive.parse r.text line = some d → IsOff switches d → next.Short) ∧
      next.Nested switches (line + feeds r.code + 1)
  | phrase _ s next => next.Nested switches (line + feeds s.code + 1)
  | compound _ f body _ next =>
    let inside := line + feeds f.front + 1
    (∃ b : Resolver.Block, body.directives inside = b.directives) ∧ body.Nested switches inside ∧
      next.Nested switches (inside + feeds body.text + feeds f.back + 1)
  | listing _ f cells next =>
    let inside := line + feeds f.front
    let below := inside + feeds cells.text
    (∃ b : Resolver.Block, directivesIn (cells.remarks inside) = b.directives) ∧
      Between switches inside below (directivesIn (cells.remarks inside)) ∧
      next.Nested switches (below + feeds f.back + 1)

/-- Whether a range that is emitted for the directives of a program starts and ends on its lines, or
starts with a branch that was open before, and does not cut through the program. -/
structure Fits (stack : List Frame) (p : Program) (line : Nat) (x : LineRange) : Prop where
  first : (∃ frame ∈ stack, x.first = frame.line) ∨ line ≤ x.first
  first_lt : x.first < line + feeds p.text
  last : line ≤ x.last ∧ x.last < line + feeds p.text
  whole : p.Whole [x] line

/-- The line behind the directive of a switch that is off is not a part of what stands there. -/
theorem Short.whole (h : p.Short) (hfirst : x.first < line) (hlast : x.last = line) :
  0 < feeds p.text ∧ p.Whole [x] line
  := by
  cases p with
  | nil | compound => contradiction
  | listing indent f cells next =>
      have hshort : feeds (f.code cells) = 0 := h
      simp only [Compound.code, feeds_append] at hshort
      simp only [Program.text, Compound.code, feeds_append, feeds_feed, Whole, List.mem_singleton,
        forall_eq, LineRange.contains, Bool.and_eq_true, decide_eq_true_eq]
      exact ⟨by omega, by omega, whole_of_outside next (by omega) (by omega)⟩
  | blank indent next =>
      simp only [Program.text, feeds_append, feeds_feed]
      exact ⟨by omega, whole_of_outside next (by omega) (by omega)⟩
  | remark indent r next =>
      simp only [Program.text, feeds_append, feeds_feed]
      exact ⟨by omega, whole_of_outside next (by omega) (by omega)⟩
  | phrase indent s next =>
      have hshort : feeds s.code = 0 := h
      simp only [Program.text, feeds_append, feeds_feed, Whole, List.mem_singleton, forall_eq,
        LineRange.contains, Bool.and_eq_true, decide_eq_true_eq]
      exact ⟨by omega, by omega, whole_of_outside next (by omega) (by omega)⟩

variable {indent foot : List Char} {next : Program}

/-- What is emitted at the directive in a comment does not cut through what follows. -/
theorem fits_of_emits {m : Remark} {d : Directive} (hline : d.line = line)
    (hs : ∀ frame ∈ s.stack, frame.line < line) (hshort : IsOff r.switches d → next.Short)
    (h : r.Emits s d x) :
  Fits s.stack (remark indent m next) line x
  := by
  have hfeeds : feeds (remark indent m next).text
      = feeds indent + (feeds m.code + (feeds next.text + 1)) := by
    simp only [Program.text, feeds_append, feeds_feed]
  obtain ⟨frame, below, hstack, -, -, rfl⟩ | ⟨name, hd, -, hoff, rfl⟩ := Resolver.emits_iff.mp h
  · have hmem : frame ∈ s.stack := hstack ▸ List.mem_cons_self
    have hlt := hs frame hmem
    refine ⟨.inl ⟨frame, hmem, rfl⟩, ?_, ?_, whole_of_outside next ?_ ?_⟩
    all_goals
      simp only [hfeeds, hline]
      omega
  · have hshort := hshort ⟨name, hd, hoff⟩
    rw [hline]
    obtain hzero | hpos := Nat.eq_zero_or_pos (feeds m.code)
    · have hwhole := @Short.whole next (line + feeds m.code + 1) ⟨line, line + 1⟩ hshort
        (by simp only; omega) (by simp only; omega)
      refine ⟨.inr (Nat.le_refl line), ?_, ?_, hwhole.2⟩
      all_goals
        simp only [hfeeds]
        omega
    · refine ⟨.inr (Nat.le_refl line), ?_, ?_, whole_of_outside next ?_ ?_⟩
      all_goals
        simp only [hfeeds]
        omega

/-! ### Ranges that fit -/

namespace Fits

variable {stack stack' : List Frame} {m : Remark} {t : Phrase} {f : Compound} {body : Program}
  {cells : Cells}

theorem blank (h : Fits stack next (line + 1) x) :
  Fits stack (blank indent next) line x
  := by
  have hfirst := h.first_lt
  have hlast := h.last
  refine ⟨h.first.imp_right Nat.le_of_succ_le, ?_, ?_, h.whole⟩
  all_goals
    simp only [Program.text, feeds_append, feeds_feed]
    omega

/-- The directive in a comment opens branches on its line only. -/
theorem remark (hstack : ∀ frame ∈ stack', frame ∈ stack ∨ frame.line = line)
    (h : Fits stack' next (line + feeds m.code + 1) x) :
  Fits stack (remark indent m next) line x
  := by
  have hfirst := h.first_lt
  have hlast := h.last
  refine ⟨?_, ?_, ?_, h.whole⟩
  · obtain ⟨frame, hframe, hfirst⟩ | hfirst := h.first
    · obtain hframe | hframe := hstack frame hframe
      · exact .inl ⟨frame, hframe, hfirst⟩
      · exact .inr (by omega)
    · exact .inr (by omega)
  all_goals
    simp only [Program.text, feeds_append, feeds_feed]
    omega

/-- A range that ends behind the first lines of a program starts before or behind them. -/
theorem first_outside {line' : Nat} (h : Fits stack next line' x)
    (hs : ∀ frame ∈ stack, frame.line < line) :
  x.first < line ∨ line' ≤ x.first
  := by
  refine h.first.imp_left ?_
  rintro ⟨frame, hframe, hfirst⟩
  rw [hfirst]
  exact hs frame hframe

theorem phrase (hs : ∀ frame ∈ stack, frame.line < line)
    (h : Fits stack next (line + feeds t.code + 1) x) :
  Fits stack (phrase indent t next) line x
  := by
  have hfirst_lt := h.first_lt
  have hlast := h.last
  have hfirst := h.first_outside hs
  refine ⟨h.first.imp_right fun hle => ?_, ?_, ?_, ?_, h.whole⟩
  · omega
  · simp only [Program.text, feeds_append, feeds_feed]
    omega
  · simp only [Program.text, feeds_append, feeds_feed]
    omega
  · simp only [List.mem_singleton, forall_eq, LineRange.contains, Bool.and_eq_true,
      decide_eq_true_eq]
    omega

/-- A range of a chain in a compound statement starts and ends in it. -/
theorem inner (h : Fits [] body (line + feeds f.front + 1) x) :
  Fits stack (compound indent f body foot next) line x
  := by
  have hfirst_lt := h.first_lt
  have hlast := h.last
  have hfirst : line + feeds f.front + 1 ≤ x.first := by
    obtain ⟨frame, hframe, -⟩ | hfirst := h.first
    · contradiction
    · exact hfirst
  refine ⟨.inr (by omega), ?_, ?_, ?_, h.whole, whole_of_outside next (by omega) (by omega)⟩
  · simp only [Program.text, feeds_append, feeds_feed]
    omega
  · simp only [Program.text, feeds_append, feeds_feed]
    omega
  · simp only [List.mem_singleton, forall_eq, LineRange.contains, Bool.and_eq_true,
      decide_eq_true_eq]
    omega

/-- A range that ends behind a compound statement starts before or behind it. -/
theorem behind (hs : ∀ frame ∈ stack, frame.line < line)
    (h : Fits stack next
      (line + feeds f.front + 1 + feeds body.text + feeds f.back + 1) x) :
  Fits stack (compound indent f body foot next) line x
  := by
  have hfirst_lt := h.first_lt
  have hlast := h.last
  have hfirst := h.first_outside hs
  refine ⟨h.first.imp_right fun hle => ?_, ?_, ?_, ?_, ?_, h.whole⟩
  · omega
  · simp only [Program.text, feeds_append, feeds_feed]
    omega
  · simp only [Program.text, feeds_append, feeds_feed]
    omega
  · simp only [List.mem_singleton, forall_eq, LineRange.contains, Bool.and_eq_true,
      decide_eq_true_eq]
    omega
  · exact whole_of_outside body (by omega) (by omega)

/-- A range between the first and the last line of a list takes no part of what is around the list.
-/
theorem listed (hfirst : line + feeds f.front < x.first)
    (hfirst_lt : x.first < line + feeds f.front + feeds cells.text)
    (hlast : line + feeds f.front < x.last)
    (hlast_lt : x.last < line + feeds f.front + feeds cells.text) :
  Fits stack (listing indent f cells next) line x
  := by
  refine ⟨.inr (by omega), ?_, ?_, ?_, whole_of_outside next (by omega) (by omega)⟩
  · simp only [Program.text, Compound.code, feeds_append, feeds_feed]
    omega
  · simp only [Program.text, Compound.code, feeds_append, feeds_feed]
    omega
  · simp only [List.mem_singleton, forall_eq, LineRange.contains, Bool.and_eq_true,
      decide_eq_true_eq]
    omega

/-- A range that ends behind a list starts before or behind it. -/
theorem behind_list (hs : ∀ frame ∈ stack, frame.line < line)
    (h : Fits stack next (line + feeds f.front + feeds cells.text + feeds f.back + 1) x) :
  Fits stack (listing indent f cells next) line x
  := by
  have hfirst_lt := h.first_lt
  have hlast := h.last
  have hfirst := h.first_outside hs
  refine ⟨h.first.imp_right fun hle => ?_, ?_, ?_, ?_, h.whole⟩
  · omega
  · simp only [Program.text, Compound.code, feeds_append, feeds_feed]
    omega
  · simp only [Program.text, Compound.code, feeds_append, feeds_feed]
    omega
  · simp only [List.mem_singleton, forall_eq, LineRange.contains, Bool.and_eq_true,
      decide_eq_true_eq]
    omega

end Fits

/-- A block of directives emits nothing but what it emits where no chain is open, and leaves the
chains that are open as they are. -/
theorem run_directives_of_block {b : Resolver.Block} {ds : List Directive}
    (hds : ds = b.directives) (s : Resolver.State) :
  (r.run s ds).stack = s.stack ∧
    ∀ x ∈ (r.run s ds).ranges, x ∈ s.ranges ∨ x ∈ (r.run {} ds).ranges
  := by
  subst hds
  have hnone := Resolver.Block.sound (r := r) b (s := {}) rfl
  by_cases hlive : s.outcome = .taken
  · rw [Resolver.Block.sound b hlive, hnone]
    simp
  · rw [Resolver.run_block_of_not_taken b hlive]
    exact ⟨rfl, fun x hx => .inl hx⟩

/-- What directives between two lines emit starts and ends between these, if the chains that are
open before them start there.  -/
theorem Between.run {first last : Nat} {ds : List Directive} (h : Between r.switches first last ds)
    (hs : ∀ frame ∈ s.stack, first < frame.line ∧ frame.line < last)
    (hx : x ∈ (r.run s ds).ranges) :
  x ∈ s.ranges ∨ (first < x.first ∧ x.first < last) ∧ first < x.last ∧ x.last < last
  := by
  induction ds generalizing s with
  | nil => exact .inl hx
  | cons d ds ih =>
      obtain ⟨⟨hfirst, hlast, hoff⟩, hds⟩ := List.forall_mem_cons.mp h
      rw [Resolver.run_cons] at hx
      have hstack : ∀ frame ∈ (r.apply s d).stack, first < frame.line ∧ frame.line < last :=
        (Resolver.restack_apply s d).forall_mem (P := fun frame =>
          first < frame.line ∧ frame.line < last) hs fun frame hline => hline ▸ ⟨hfirst, hlast⟩
      obtain hx | hx := ih hds hstack hx
      · refine (Resolver.mem_ranges_apply_iff.mp hx).imp_right fun hemits => ?_
        obtain ⟨frame, below, hframe, -, -, rfl⟩ | ⟨name, hd, -, hflag, rfl⟩ :=
          Resolver.emits_iff.mp hemits
        · have := hs frame (hframe ▸ List.mem_cons_self)
          exact ⟨this, hfirst, hlast⟩
        · exact ⟨⟨hfirst, hlast⟩, Nat.lt_succ_of_lt hfirst, hoff ⟨name, hd, hflag⟩⟩
      · exact .inr hx

/-- A step at the directive in a comment emits what fits, and opens branches on its line only. -/
theorem fits_apply {m : Remark} {d : Directive} (hline : d.line = line)
    (hs : ∀ frame ∈ s.stack, frame.line < line) (hshort : IsOff r.switches d → next.Short) :
  (∀ frame ∈ (r.apply s d).stack, frame ∈ s.stack ∨ frame.line = line) ∧
    ∀ x ∈ (r.apply s d).ranges, x ∈ s.ranges ∨ Fits s.stack (remark indent m next) line x
  := by
  constructor
  · apply (Resolver.restack_apply s d).forall_mem
      (P := fun frame => frame ∈ s.stack ∨ frame.line = line)
    · exact fun frame hframe => .inl hframe
    · exact fun frame hframe => .inr (hframe.trans hline)
  · intro x hx
    exact (Resolver.mem_ranges_apply_iff.mp hx).imp_right (fits_of_emits hline hs hshort)

/-- No range that is emitted for the directives of a program cuts through it, if they are well
nested. -/
theorem Nested.fits (h : p.Nested r.switches line) (hs : ∀ frame ∈ s.stack, frame.line < line)
    (hx : x ∈ (r.run s (p.directives line)).ranges) :
  x ∈ s.ranges ∨ Fits s.stack p line x
  := by
  induction p generalizing line s with
  | nil => exact .inl hx
  | blank indent next ih =>
      exact (ih h (fun frame hframe => Nat.lt_succ_of_lt (hs frame hframe)) hx).imp_right .blank
  | remark indent m next ih =>
      obtain ⟨hshort, hnext⟩ := h
      -- what the rest emits where it starts with open chains that start no later than the comment
      have hrest {t : Resolver.State} (ht : ∀ frame ∈ t.stack, frame ∈ s.stack ∨ frame.line = line)
          (hx : x ∈ (r.run t (next.directives (line + feeds m.code + 1))).ranges) :
          x ∈ t.ranges ∨ Fits s.stack (.remark indent m next) line x := by
        refine (ih hnext (fun frame hframe => ?_) hx).imp_right (.remark ht)
        obtain hframe | hframe := ht frame hframe
        · have := hs frame hframe
          omega
        · omega
      rw [directives, remarks, directivesIn, List.filterMap_cons] at hx
      cases hparse : Directive.parse m.text line with
      | none =>
          rw [hparse] at hx
          exact hrest (fun frame hframe => .inl hframe) hx
      | some d =>
          simp only [hparse, Resolver.run_cons] at hx
          obtain ⟨hstack, hranges⟩ := fits_apply (line_of_parse hparse) hs (hshort d hparse)
          obtain hx | hfits := hrest hstack hx
          · exact hranges x hx
          · exact .inr hfits
  | phrase indent t next ih =>
      refine (ih h (fun frame hframe => ?_) hx).imp_right (.phrase hs)
      have := hs frame hframe
      omega
  | compound indent f body foot next ihbody ih =>
      obtain ⟨⟨b, hblock⟩, hbody, hnext⟩ := h
      obtain ⟨hstack, hranges⟩ := @run_directives_of_block r b _ hblock s
      rw [directives, remarks, directivesIn, List.filterMap_append, Resolver.run_append] at hx
      have hlines : ∀ frame ∈ (r.run s (body.directives (line + feeds f.front + 1))).stack,
          frame.line < line + feeds f.front + 1 + feeds body.text + feeds f.back + 1 := by
        intro frame hframe
        rw [hstack] at hframe
        have := hs frame hframe
        omega
      obtain hx | hfits := ih hnext hlines hx
      · obtain hx | hx := hranges x hx
        · exact .inl hx
        · obtain hx | hfits := ihbody hbody (fun _ hframe => absurd hframe List.not_mem_nil) hx
          · contradiction
          · exact .inr hfits.inner
      · rw [hstack] at hfits
        exact .inr (hfits.behind hs)
  | listing indent f cells next ih =>
      obtain ⟨⟨b, hblock⟩, hbetween, hnext⟩ := h
      obtain ⟨hstack, hranges⟩ := @run_directives_of_block r b _ hblock s
      rw [directives, remarks, directivesIn, List.filterMap_append, Resolver.run_append] at hx
      have hlines : ∀ frame ∈ (r.run s (directivesIn (cells.remarks (line + feeds f.front)))).stack,
          frame.line < line + feeds f.front + feeds cells.text + feeds f.back + 1 := by
        intro frame hframe
        rw [hstack] at hframe
        have := hs frame hframe
        omega
      obtain hx | hfits := ih hnext hlines hx
      · obtain hx | hx := hranges x hx
        · exact .inl hx
        · obtain hx | ⟨⟨hfirst, hfirst_lt⟩, hlast, hlast_lt⟩ :=
            hbetween.run (fun _ hframe => absurd hframe List.not_mem_nil) hx
          · contradiction
          · exact .inr (.listed hfirst hfirst_lt hlast hlast_lt)
      · rw [hstack] at hfits
        exact .inr (hfits.behind_list hs)

/-- No range cuts through a program whose directives are well nested. -/
theorem Nested.whole (h : p.Nested o.switches 1) :
  p.Whole (p.ranges o) 1
  := by
  rw [whole_iff, ranges_eq_resolve]
  intro x hx
  obtain hx | hfits := @Nested.fits p o.resolver {} 1 x h
    (fun _ hframe => absurd hframe List.not_mem_nil) hx
  · contradiction
  · exact hfits.whole

end Program

end Prune
