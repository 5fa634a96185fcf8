import Prune.Proofs.Process
import Prune.Proofs.Resolver.Discipline
import Prune.Proofs.Resolver.Geometry

/-!
# The directives that open ranges

A range is opened by a directive (`Resolver.Opener`): by that of the branch that is left when the
range is emitted, or by that of a switch that is off.  There is such a directive for each range
(`Resolver.exists_opener`), and only one (`Resolver.Opener.unique`).  It is not recorded with the
range but found again by the line on which the range starts, which is its line
(`Resolver.Opener.first_eq`).  What is found is the first directive on the line, and so another one
if the directive that opened the range stands behind it (`directiveAt?_first`).
-/

namespace Prune

namespace Resolver

variable {r : Resolver} {s : State} {d e : Directive} {ds pre mid done : List Directive}
  {front back : List LineRange} {range : LineRange} {frame : Frame} {below : List Frame}

/-! ### The branch that is left -/

variable (r) in
/-- Whether the open branch of a chain is that of the directive `d`, read behind `pre`: it opened
the chain or moved it on, and while `mid` was read the chain stayed open and was not moved on. -/
def OpenedBy (pre : List Directive) (d : Directive) (mid : List Directive) (frame : Frame)
    (below : List Frame) : Prop :=
  Turns (r.resolve pre) d below ∧
    ∀ earlier e later, mid = earlier ++ e :: later →
      frame :: below <:+ (r.resolve (pre ++ d :: earlier)).stack ∧
        ¬Turns (r.resolve (pre ++ d :: earlier)) e below

/-- A directive that opens a chain or moves it on begins a branch on its own line. -/
theorem exists_next_of_turns (h : Turns s d below) :
  ∃ next, (r.apply s d).stack = next :: below ∧ next.line = d.line
  := by
  cases h with
  | opens hd hs =>
      by_cases live : s.outcome = .taken
      · rw [apply_eq_of_step (.opened hd live), State.add_stack, hs]
        exact ⟨_, rfl, rfl⟩
      · rw [apply_eq_of_step (.skipped hd live), hs]
        exact ⟨_, rfl, rfl⟩
  | moves hd hk hs movable =>
      obtain ⟨outcome, asked, happly⟩ := apply_of_movable (r := r) hd hk hs movable
      rw [happly, State.add_stack]
      exact ⟨_, rfl, rfl⟩

/-- The open branch starts on the line of the directive that it is of. -/
theorem OpenedBy.line_eq (h : r.OpenedBy pre d mid frame below)
    (hs : (r.resolve (pre ++ d :: mid)).stack = frame :: below) :
  frame.line = d.line
  := by
  obtain ⟨turns, later⟩ := h
  obtain ⟨next, hnext, hline⟩ := exists_next_of_turns (r := r) turns
  have hopen : frame :: below <:+ (r.resolve (pre ++ [d])).stack := by
    cases mid with
    | nil => exact hs ▸ List.suffix_refl _
    | cons e mid => exact (later [] e mid rfl).1
  rw [resolve_concat, hnext] at hopen
  obtain ⟨rfl, -⟩ := List.cons.inj (hopen.eq_of_length rfl)
  exact hline

/-- The directive that an open branch is of is the last one that opened the chain or moved it on. -/
theorem OpenedBy.eq_nil_of_turns {behind mid' : List Directive} {d' : Directive}
    (h : r.OpenedBy pre d mid frame below) (turns : Turns (r.resolve (pre ++ behind)) d' below)
    (heq : d :: mid = behind ++ d' :: mid') :
  behind = []
  := by
  cases behind with
  | nil => rfl
  | cons first behind =>
      obtain ⟨rfl, rfl⟩ := List.cons.inj heq
      exact absurd turns (h.2 behind d' mid' rfl).2

/-- Of all directives that were read, an open branch is that of only one. -/
theorem OpenedBy.unique {pre' mid' : List Directive} {d' : Directive}
    (h : r.OpenedBy pre d mid frame below) (h' : r.OpenedBy pre' d' mid' frame below)
    (heq : pre ++ d :: mid = pre' ++ d' :: mid') :
  pre' = pre ∧ d' = d
  := by
  obtain ⟨between, rfl, hrest⟩ | ⟨between, rfl, hrest⟩ := List.append_eq_append_iff.mp heq
  · obtain rfl := h.eq_nil_of_turns h'.1 hrest
    exact ⟨List.append_nil _, (List.cons.inj hrest).1.symm⟩
  · obtain rfl := h'.eq_nil_of_turns h.1 hrest
    exact ⟨(List.append_nil _).symm, (List.cons.inj hrest).1⟩

/-! ### The directive that opens a range -/

variable (r) in
/-- Whether the directive `e`, read behind `done`, emits the range that stands behind `front`. -/
structure EmitsAt (ds : List Directive) (front : List LineRange) (range : LineRange)
    (done : List Directive) (e : Directive) : Prop where
  isPrefix : done ++ [e] <+: ds
  ranges : (r.resolve done).ranges = front
  emits : r.Emits (r.resolve done) e range

variable (r) in
/-- Whether the range that `e` emits behind `done` is due to the directive `d`, read behind `pre`:
to `e` itself if it is that of a switch, and else to the directive of the branch that `e` leaves. -/
inductive DueTo (done : List Directive) (e : Directive) :
    (pre : List Directive) → (d : Directive) → Prop
  | switch {name : String} (he : e.kind = .switch name) : DueTo done e done e
  | branch {pre mid : List Directive} {d : Directive} {frame : Frame} {below : List Frame}
      (hdone : done = pre ++ d :: mid) (hs : (r.resolve done).stack = frame :: below)
      (leaves : Leaves e frame) (opened : r.OpenedBy pre d mid frame below) : DueTo done e pre d

variable (r) in
/-- Whether the directive `d`, read behind `pre`, opens the range that stands behind `front`. -/
def Opener (ds : List Directive) (front : List LineRange) (range : LineRange)
    (pre : List Directive) (d : Directive) : Prop :=
  ∃ done e, r.EmitsAt ds front range done e ∧ r.DueTo done e pre d

theorem EmitsAt.append (h : r.EmitsAt ds front range done e) (more : List Directive) :
  r.EmitsAt (ds ++ more) front range done e
  := ⟨h.isPrefix.trans (List.prefix_append ds more), h.ranges, h.emits⟩

/-- Each range that was emitted was emitted by a directive. -/
theorem exists_emitsAt (h : (r.resolve ds).ranges = front ++ range :: back) :
  ∃ done e, r.EmitsAt ds front range done e
  := by
  induction ds using List.reverseRecOn generalizing back with
  | nil => simp [resolve] at h
  | append_singleton ds d ih =>
      rw [resolve_concat] at h
      rcases ranges_apply_or_emits (r := r) (r.resolve ds) d with hsame | ⟨last, hemits⟩
      · rw [hsame] at h
        obtain ⟨done, e, hat⟩ := ih h
        exact ⟨done, e, hat.append [d]⟩
      · rw [hemits] at h
        -- the range in question is the one just emitted, or one of those before it
        rcases List.eq_nil_or_concat back with rfl | ⟨back, last', rfl⟩
        · obtain ⟨hfront, hlast⟩ := List.append_inj' h rfl
          obtain rfl := List.singleton_inj.mp hlast
          exact ⟨ds, d, List.prefix_refl _, hfront, hemits⟩
        · rw [List.concat_eq_append, ← List.cons_append, ← List.append_assoc] at h
          obtain ⟨done, e, hat⟩ := ih (List.append_inj' h rfl).1
          exact ⟨done, e, hat.append [d]⟩

/-- Behind the directive that emitted a range there are more ranges. -/
theorem EmitsAt.length_lt (h : r.EmitsAt ds front range done e) (hdone : done ++ [e] <+: mid) :
  front.length < (r.resolve mid).ranges.length
  := by
  obtain ⟨behind, rfl⟩ := hdone
  have hranges : (r.resolve (done ++ [e])).ranges = front ++ [range] := by
    rw [resolve_concat, ← h.ranges]
    exact h.emits
  rw [resolve, run_append, ← resolve, ranges_run, hranges]
  simp

/-- No directive emits a range behind the one that emitted it. -/
theorem EmitsAt.eq_of_prefix {done' : List Directive} {e' : Directive}
    (h : r.EmitsAt ds front range done e) (h' : r.EmitsAt ds front range done' e')
    (hle : done ++ [e] <+: done' ++ [e']) :
  done' = done ∧ e' = e
  := by
  obtain heq | hearlier := List.prefix_concat_iff.mp hle
  · obtain ⟨hdone, he⟩ := List.append_inj' heq rfl
    exact ⟨hdone.symm, (List.singleton_inj.mp he).symm⟩
  · have hlength := h.length_lt hearlier
    rw [h'.ranges] at hlength
    exact absurd hlength (Nat.lt_irrefl _)

/-- The directive that emits a range is only one. -/
theorem EmitsAt.unique {done' : List Directive} {e' : Directive}
    (h : r.EmitsAt ds front range done e) (h' : r.EmitsAt ds front range done' e') :
  done' = done ∧ e' = e
  := by
  obtain hle | hle := List.prefix_or_prefix_of_prefix h.isPrefix h'.isPrefix
  · exact h.eq_of_prefix h' hle
  · obtain ⟨rfl, rfl⟩ := h'.eq_of_prefix h hle
    exact ⟨rfl, rfl⟩

/-- A switch leaves no branch. -/
theorem not_leaves_of_switch {name : String} (he : e.kind = .switch name) :
  ¬Leaves e frame
  := by
  simp [Leaves, he]

theorem DueTo.unique {pre' : List Directive} {d' : Directive} (h : r.DueTo done e pre d)
    (h' : r.DueTo done e pre' d') :
  pre' = pre ∧ d' = d
  := by
  cases h with
  | switch he =>
      cases h' with
      | switch _ => exact ⟨rfl, rfl⟩
      | branch _ _ leaves _ => exact absurd leaves (not_leaves_of_switch he)
  | branch hdone hs leaves opened =>
      cases h' with
      | switch he => exact absurd leaves (not_leaves_of_switch he)
      | branch hdone' hs' _ opened' =>
          obtain ⟨rfl, rfl⟩ := List.cons.inj (hs.symm.trans hs')
          exact opened.unique opened' (hdone.symm.trans hdone')

theorem exists_dueTo (h : r.Emits (r.resolve done) e range) :
  ∃ pre d, r.DueTo done e pre d
  := by
  rcases emits_iff.mp h with ⟨frame, below, hs, -, leaves, -⟩ | ⟨name, he, -⟩
  · have hbegins : r.Begins done frame below := begins_of_suffix (hs ▸ List.suffix_refl _)
    obtain ⟨pre, d, mid, hdone, turns, -, -, later⟩ := hbegins
    exact ⟨pre, d, .branch hdone hs leaves ⟨turns, later⟩⟩
  · exact ⟨done, e, .switch he⟩

theorem exists_opener (h : (r.resolve ds).ranges = front ++ range :: back) :
  ∃ pre d, r.Opener ds front range pre d
  := by
  obtain ⟨done, e, hat⟩ := exists_emitsAt h
  obtain ⟨pre, d, hdue⟩ := exists_dueTo hat.emits
  exact ⟨pre, d, done, e, hat, hdue⟩

/-- Only one directive opens a range. -/
theorem Opener.unique {pre' : List Directive} {d' : Directive} (h : r.Opener ds front range pre d)
    (h' : r.Opener ds front range pre' d') :
  pre' = pre ∧ d' = d
  := by
  obtain ⟨done, e, hat, hdue⟩ := h
  obtain ⟨done', e', hat', hdue'⟩ := h'
  obtain ⟨rfl, rfl⟩ := hat.unique hat'
  exact hdue.unique hdue'

/-- A range starts on the line of the directive that it is due to. -/
theorem DueTo.first_eq (h : r.DueTo done e pre d) (hemits : r.Emits (r.resolve done) e range) :
  range.first = d.line
  := by
  rcases emits_iff.mp hemits with ⟨frame, below, hs, -, leaves, rfl⟩ | ⟨name, he, -, -, rfl⟩
  · cases h with
    | switch he => exact absurd leaves (not_leaves_of_switch he)
    | branch hdone hs' _ opened =>
        obtain ⟨rfl, rfl⟩ := List.cons.inj (hs.symm.trans hs')
        exact opened.line_eq (hdone ▸ hs)
  · cases h with
    | switch _ => rfl
    | branch _ _ leaves _ => exact absurd leaves (not_leaves_of_switch he)

theorem Opener.first_eq (h : r.Opener ds front range pre d) :
  range.first = d.line
  := by
  obtain ⟨done, e, hat, hdue⟩ := h
  exact hdue.first_eq hat.emits

/-- The directive that opens a range stands among those that are read, behind those before it. -/
theorem Opener.isPrefix (h : r.Opener ds front range pre d) :
  pre ++ [d] <+: ds
  := by
  obtain ⟨done, e, hat, hdue⟩ := h
  cases hdue with
  | switch he => exact hat.isPrefix
  | branch hdone _ _ _ =>
      apply List.IsPrefix.trans _ hat.isPrefix
      rw [hdone, List.append_assoc, List.prefix_append_right_inj, List.cons_append]
      exact List.prefix_append [d] _

/-- Where no two directives stand on one line, none stands on the line of the one that opens a
range. -/
theorem Opener.line_ne (h : r.Opener ds front range pre d)
    (hlines : (ds.map Directive.line).Nodup) :
  ∀ other ∈ pre, other.line ≠ d.line
  := by
  have hpre : ((pre ++ [d]).map Directive.line).Nodup :=
    hlines.sublist (h.isPrefix.sublist.map Directive.line)
  rw [List.map_append, List.nodup_append] at hpre
  intro other hother
  exact hpre.2.2 other.line (List.mem_map_of_mem hother) d.line (List.mem_singleton_self _)

end Resolver

/-! ### The directive on the line where a range starts -/

/-- The ranges of a text are those of its directives. -/
theorem ranges_of_process {text path : String} {o : Options} {p : Processed}
    (h : process text path o = some p) :
  p.ranges = (o.resolver.resolve p.directives).ranges
  := by
  obtain ⟨parsed, -, rfl⟩ := parsed_of_process h
  rfl

/-- Each range of a text is opened by just one directive, on whose line it starts.  What is found on
this line is the first directive on it, and so the one that opened the range if none stands on the
line before it. -/
theorem directiveAt?_first {text path : String} {o : Options} {p : Processed}
    (hp : process text path o = some p) {front back : List LineRange} {range : LineRange}
    (h : p.ranges = front ++ range :: back) :
  ∃ pre d, o.resolver.Opener p.directives front range pre d ∧
    (∀ pre' d', o.resolver.Opener p.directives front range pre' d' → pre' = pre ∧ d' = d) ∧
    range.first = d.line ∧
    p.directiveAt? range.first = (pre ++ [d]).find? (fun other => other.line == d.line) ∧
    ((∀ other ∈ pre, other.line ≠ d.line) → p.directiveAt? range.first = some d)
  := by
  rw [ranges_of_process hp] at h
  obtain ⟨pre, d, hopener⟩ := Resolver.exists_opener h
  have hfound : p.directiveAt? range.first
      = (pre ++ [d]).find? (fun other => other.line == d.line) := by
    obtain ⟨post, hpost⟩ := hopener.isPrefix
    rw [Processed.directiveAt?, hopener.first_eq, ← hpost, List.find?_append]
    cases hfind : (pre ++ [d]).find? (fun other => other.line == d.line) with
    | some found => rfl
    | none => simp at hfind
  refine ⟨pre, d, hopener, fun pre' d' h' => hopener.unique h', hopener.first_eq, hfound, ?_⟩
  intro hpre
  rw [hfound, List.find?_append, List.find?_eq_none.mpr (by simpa using hpre)]
  simp

/-- A branch that is dropped and a switch, each behind a directive on a line of its own. -/
theorem directiveAt?_first_otherwise :
  let text := "// #if A\na();\n// #else\nb();\n// #endif\n// #debug\nc();\n"
  let o : Options := { symbols := [("A", .bool true)], switches := [("debug", false)] }
  ∃ p, process text "a.js" o = some p ∧ p.ranges = [⟨3, 5⟩, ⟨6, 7⟩] ∧
    (∃ pre d, o.resolver.Opener p.directives [] ⟨3, 5⟩ pre d ∧ p.directiveAt? 3 = some d) ∧
    (∃ pre d, o.resolver.Opener p.directives [⟨3, 5⟩] ⟨6, 7⟩ pre d ∧ p.directiveAt? 6 = some d) ∧
    p.directiveAt? 3 = some ⟨.branch .otherwise, none, 3⟩ ∧
    p.directiveAt? 6 = some ⟨.switch "debug", none, 6⟩
  := by
  intro text o
  have h : (process text "a.js" o).any (fun p =>
      p.ranges == [⟨3, 5⟩, ⟨6, 7⟩] && decide (p.directives.map Directive.line).Nodup &&
        p.directiveAt? 3 == some ⟨.branch .otherwise, none, 3⟩ &&
        p.directiveAt? 6 == some ⟨.switch "debug", none, 6⟩) = true := by
    decide +kernel
  obtain ⟨p, hp, h⟩ := (Option.any_eq_true _ _).mp h
  simp only [Bool.and_eq_true, beq_iff_eq, decide_eq_true_eq] at h
  obtain ⟨⟨⟨hranges, hlines⟩, hotherwise⟩, hswitch⟩ := h
  have hfirst : p.ranges = [] ++ ⟨3, 5⟩ :: [⟨6, 7⟩] := hranges
  have hsecond : p.ranges = [⟨3, 5⟩] ++ ⟨6, 7⟩ :: [] := hranges
  obtain ⟨pre, d, hopener, -, -, -, hfound⟩ := directiveAt?_first hp hfirst
  obtain ⟨pre', d', hopener', -, -, -, hfound'⟩ := directiveAt?_first hp hsecond
  refine ⟨p, hp, hranges, ⟨pre, d, hopener, ?_⟩, ⟨pre', d', hopener', ?_⟩, hotherwise, hswitch⟩
  · exact hfound (hopener.line_ne hlines)
  · exact hfound' (hopener'.line_ne hlines)

/-- A range whose directive stands behind another on its line is found with the other. -/
theorem directiveAt?_ne_opener :
  let text := "/* #if A */ a(); /* #else */\nb();\n/* #endif */\n"
  let o : Options := { symbols := [("A", .bool true)] }
  ∃ p, process text "a.js" o = some p ∧ p.ranges = [⟨1, 3⟩] ∧
    o.resolver.Opener p.directives [] ⟨1, 3⟩ [⟨.branch .opening, some "A", 1⟩]
      ⟨.branch .otherwise, none, 1⟩ ∧
    p.directiveAt? 1 = some ⟨.branch .opening, some "A", 1⟩
  := by
  intro text o
  have h : (process text "a.js" o).any (fun p =>
      p.ranges == [⟨1, 3⟩] &&
        p.directives == [⟨.branch .opening, some "A", 1⟩, ⟨.branch .otherwise, none, 1⟩,
          ⟨.branch .closing, none, 3⟩] &&
        p.directiveAt? 1 == some ⟨.branch .opening, some "A", 1⟩) = true := by
    decide +kernel
  obtain ⟨p, hp, h⟩ := (Option.any_eq_true _ _).mp h
  simp only [Bool.and_eq_true, beq_iff_eq] at h
  obtain ⟨⟨hranges, hdirectives⟩, hfound⟩ := h
  refine ⟨p, hp, hranges, ?_, hfound⟩
  rw [hdirectives]
  have hopening : (o.resolver.resolve [⟨.branch .opening, some "A", 1⟩]).stack
      = [⟨.opening, 1, .taken, 1, true⟩] := by
    decide +kernel
  have hotherwise : (o.resolver.resolve
      [⟨.branch .opening, some "A", 1⟩, ⟨.branch .otherwise, none, 1⟩]).stack
      = [⟨.otherwise, 1, .dropped, 1, true⟩] := by
    decide +kernel
  refine ⟨_, ⟨.branch .closing, none, 3⟩, ⟨List.prefix_refl _, ?_, ?_⟩,
    .branch rfl hotherwise (.inl rfl) ⟨.moves rfl (.inr rfl) hopening ?_, ?_⟩⟩
  · decide +kernel
  · exact Resolver.emits_of_leaves hotherwise rfl (.inl rfl)
  · exact ⟨.inl rfl, by decide⟩
  · simp

end Prune
