import Mathlib.Data.List.Basic
import Prune.Proofs.Outcome
import Prune.Proofs.Resolver.Recognition

/-!
# Switches that are off

What goes from a source text whose only directive is a switch that is off (`process_switch_off`).
The resolver emits the line on which the switch starts and the one behind it
(`LoneSwitch.ranges_eq`), so that code on the line of the switch goes as well
(`process_switch_off_takes_own_line`).  Nothing goes but what may go with the line behind if no code
that could go starts on the line of the switch (`Elision.StartsBehind`): then what goes has the
reasons that it would have if the line behind were all that is to go (`Elision.Narrows.reason`).
-/

namespace Prune

open Text Source

/-- Whether a span has nothing but blanks in it. -/
def Source.Span.Inkless (text : List Char) (s : Span) : Prop :=
  ∀ pos, s.Has pos → ¬InkAt text pos

instance (text : List Char) (s : Span) : Decidable (s.Inkless text) :=
  decidable_of_iff (∀ pos < s.hi, s.lo ≤ pos → ¬InkAt text pos)
    ⟨fun h pos hpos => h pos hpos.2 hpos.1, fun h pos hhi hlo => h pos ⟨hlo, hhi⟩⟩

namespace Elision

/-- The walk with other ranges. -/
def withRanges (e : Elision) (ranges : List LineRange) : Elision :=
  { e with ranges := ranges }

/-- Whether the code that goes starts behind a line.  Blanks between the children of an element do
not count, and no more do braces with directives alone. -/
@[mk_iff] structure StartsBehind (e : Elision) (root : Tree) (line : Nat) : Prop where
  members : ∀ s, root.Below s → s.rule?.isSome = true → ∀ t ∈ s.parts, e.excluded t.span = true →
    line < (linesOf e.starts t.span).1 ∨ s.rule? = some .children ∧
      (t.span.Inkless e.text ∨ isEmptyContainer t = true ∧ e.holdsDirectives t.span = true)
  frames : ∀ t, root.Below t → t.kind?.any Kind.isFrame = true → e.excluded t.span = true →
    line < (linesOf e.starts t.span).1
  tags : ∀ t, root.Below t → isElement t = true → ∀ tag ∈ t.parts, isTag tag = true →
    e.excluded tag.span = true → line < (linesOf e.starts tag.span).1

instance (e : Elision) (root : Tree) (line : Nat) : Decidable (e.StartsBehind root line) :=
  decidable_of_iff _ (startsBehind_iff e root line).symm

variable {e : Elision} {root t : Tree} {ranges : List LineRange} {line : Nat} {edit : Edit}
  {comments : List Comment}

/-- Whether the walk with other ranges has fewer lines to delete, and has all that start behind a
line. -/
structure Narrows (e : Elision) (ranges : List LineRange) (line : Nat) : Prop where
  fewer {s : Span} (h : (e.withRanges ranges).excluded s = true) : e.excluded s = true
  behind {s : Span} (h : e.excluded s = true) (hline : line < (linesOf e.starts s).1) :
    (e.withRanges ranges).excluded s = true

theorem Narrows.stays (h : e.Narrows ranges line) {s : Span} (hstays : e.excluded s = false) :
  (e.withRanges ranges).excluded s = false
  := by
  cases hgoes : (e.withRanges ranges).excluded s with
  | false => rfl
  | true => rw [h.fewer hgoes] at hstays; contradiction

section Narrow

variable (hnarrows : e.Narrows ranges line) (hbehind : e.StartsBehind root line)

include hnarrows hbehind

/-- A member of a separated series that goes starts behind the line. -/
theorem Narrows.excluded_item {rule : Rule} {items : List Tree}
    (hseries : root.Below (.series rule items)) (hrule : rule.isSeparated = true) (ht : t ∈ items)
    (hgoes : e.excluded t.span = true) :
  (e.withRanges ranges).excluded t.span = true
  := by
  obtain hline | ⟨hchildren, -⟩ := hbehind.members _ hseries rfl t ht hgoes
  · apply hnarrows.behind hgoes hline
  · obtain rfl := Option.some.inj hchildren
    contradiction

theorem Narrows.isLastKept {rule : Rule} {items : List Tree} {kept : Tree}
    (hseries : root.Below (.series rule items)) (hrule : rule.isSeparated = true)
    (hkept : e.IsLastKept items kept) :
  (e.withRanges ranges).IsLastKept items kept
  := by
  obtain ⟨front, back, rfl, hstays, hback, t, ht, hgoes⟩ := hkept
  have hnarrow : ∀ u ∈ back, e.excluded u.span = true →
      (e.withRanges ranges).excluded u.span = true := by
    intro u hu
    apply hnarrows.excluded_item hbehind hseries hrule
    simp [hu]
  use front, back, rfl
  refine ⟨?_, ?_, t, ht, hnarrow t ht hgoes⟩
  · rw [goesOrHole, Bool.or_eq_false_iff] at hstays ⊢
    exact ⟨hstays.1, hnarrows.stays hstays.2⟩
  · intro u hu
    have hgoes := hback u hu
    rw [goesOrHole, Bool.or_eq_true] at hgoes ⊢
    exact hgoes.imp_right (hnarrow u hu)

theorem Narrows.straddles {place : Source.Place} {span : Span} {parts : List Tree}
    (ht : root.Below (.node (.element place) span parts)) (hgoes : e.straddles parts = true) :
  (e.withRanges ranges).straddles parts = true
  := by
  obtain ⟨tag, htag, htaggoes⟩ := List.any_eq_true.mp hgoes
  rw [Bool.and_eq_true] at htaggoes
  apply List.any_eq_true.mpr
  use tag, htag
  rw [Bool.and_eq_true]
  use htaggoes.1
  apply hnarrows.behind htaggoes.2
  apply hbehind.tags _ ht rfl tag htag htaggoes.1 htaggoes.2

omit hbehind in
theorem Narrows.survives (hsurvives : e.survives t = true) :
  (e.withRanges ranges).survives t = true
  := by
  rw [Elision.survives, Bool.and_eq_true, Bool.not_eq_true'] at hsurvives ⊢
  exact ⟨hsurvives.1, hnarrows.stays hsurvives.2⟩

/-- If the code that goes starts behind a line, then every edit that takes out more than blanks has
a reason that does not need the line. -/
theorem Narrows.reason (hlaid : root.Laid e.text comments) (h : e.Reason root edit) :
  (∃ r, (e.withRanges ranges).Reason root { edit with replacement := r }) ∨
    ∀ pos, edit.Covers pos → ¬InkAt e.text pos
  := by
  cases h with
  | node ht hgoes hr =>
      cases ht with
      | item hseries ht =>
          obtain hline | ⟨-, hinkless | ⟨hempty, hholds⟩⟩ :=
            hbehind.members _ hseries rfl _ ht hgoes
          · exact .inl ⟨_, .node (.item hseries ht) (hnarrows.behind hgoes hline) hr⟩
          · exact .inr hinkless
          · exact .inl ⟨_, .container (.item hseries ht) hempty hholds⟩
      | frame ht hkind =>
          have hline := hbehind.frames _ ht hkind hgoes
          exact .inl ⟨_, .node (.frame ht hkind) (hnarrows.behind hgoes hline) hr⟩
  | member hseries ht hhole hgoes hsep =>
      obtain ⟨-, -, -, hhi⟩ := hlaid.placed (.item hseries ht)
      have hrule := isSeparated_of_separatorAfter hhi hsep
      have hgoes := hnarrows.excluded_item hbehind hseries hrule ht hgoes
      exact .inl ⟨_, .member (e := e.withRanges ranges) hseries ht hhole hgoes hsep⟩
  | @loose rule items kept sep hseries hkept hsep =>
      have hmem : kept ∈ items := by
        obtain ⟨front, back, rfl, -⟩ := hkept
        exact List.mem_append_right front List.mem_cons_self
      obtain ⟨-, -, -, hhi⟩ := hlaid.placed (.item hseries hmem)
      have hrule := isSeparated_of_separatorAfter hhi hsep
      have hkept := hnarrows.isLastKept hbehind hseries hrule hkept
      exact .inl ⟨_, .loose (e := e.withRanges ranges) hseries hkept hsep⟩
  | collapse ht hgoes hr =>
      exact .inl ⟨_, .collapse ht (hnarrows.straddles hbehind ht hgoes) hr⟩
  | front ht hgoes hchild hsurvives =>
      have hgoes := hnarrows.straddles hbehind ht hgoes
      exact .inl ⟨_, .front ht hgoes hchild (hnarrows.survives hsurvives)⟩
  | back ht hgoes hchild hsurvives =>
      have hgoes := hnarrows.straddles hbehind ht hgoes
      exact .inl ⟨_, .back ht hgoes hchild (hnarrows.survives hsurvives)⟩
  | container ht hempty hholds =>
      exact .inl ⟨_, .container (e := e.withRanges ranges) ht hempty hholds⟩

/-- If the code that goes starts behind a line, then what is taken out, blanks apart, may go without
the line. -/
theorem Narrows.droppable {pos : Nat} (hlaid : root.Laid e.text comments)
    (hends : ∀ k ∈ comments, k.EndsLine e.text) (hedit : edit ∈ e.edits root)
    (hpos : edit.Covers pos) (hink : InkAt e.text pos) :
  (e.withRanges ranges).Droppable root comments pos
  := by
  obtain hreason | ⟨s, hs, rfl⟩ := mem_edits_cases hedit
  · obtain ⟨r, hreason⟩ | hinkless := hnarrows.reason hbehind hlaid hreason
    · obtain ⟨k, hk, hblank⟩ := hink
      exact hreason.droppable (e := e.withRanges ranges) hlaid hends hk hblank hpos
    · exact absurd hink (hinkless pos hpos)
  · exact .directive (e := e.withRanges ranges) hs hpos

end Narrow

variable {text : String} {parsed : Parsed} {switches : Switches}

theorem excluded_iff {first last : Nat} {s : Span} :
  (ofParsed text parsed [⟨first, last⟩] switches).excluded s = true ↔
    first ≤ (linesOf (lineStarts text) s).1 ∧ (linesOf (lineStarts text) s).2 ≤ last
  := by
  change LineRange.anyContains [⟨first, last⟩] (linesOf (lineStarts text) s).1
    (linesOf (lineStarts text) s).2 = true ↔ _
  simp [LineRange.anyContains, LineRange.contains]

/-- What goes with a single line lies wholly on it. -/
theorem excluded_line_iff {line : Nat} {s : Span} :
  (ofParsed text parsed [⟨line, line⟩] switches).excluded s = true ↔
    linesOf (lineStarts text) s = (line, line)
  := by
  have hle : (linesOf (lineStarts text) s).1 ≤ (linesOf (lineStarts text) s).2 := by
    unfold linesOf lineAt
    apply Nat.add_le_add_left
    apply List.countP_mono_left
    intro start _ hstart
    simp only [decide_eq_true_eq] at hstart ⊢
    split
    · omega
    · exact hstart
  rw [excluded_iff, Prod.ext_iff]
  omega

/-- A line and the one behind it have what is on the one behind, and no more that starts behind the
line. -/
theorem narrows_ofParsed (line : Nat) :
  (ofParsed text parsed [⟨line, line + 1⟩] switches).Narrows [⟨line + 1, line + 1⟩] line
  := by
  constructor
  · intro s h
    obtain ⟨hfirst, hlast⟩ := excluded_iff.mp h
    apply excluded_iff.mpr
    omega
  · intro s h hline
    obtain ⟨-, hlast⟩ := excluded_iff.mp h
    apply excluded_iff.mpr
    exact ⟨hline, hlast⟩

end Elision

variable {text path : String} {parsed : Parsed} {o : Options} {switches : Switches}
  {c : SourceComment}

/-- The comments of a source text that are directives. -/
def directiveComments (text : String) (parsed : Parsed) (switches : Switches) :
    List SourceComment :=
  (sourceComments text parsed).filter fun c => isDirective c.comment.text switches

/-- Whether the only comment of a source text that is a directive is a switch that is off. -/
structure LoneSwitch (text : String) (parsed : Parsed) (switches : Switches) (c : SourceComment) :
    Prop where
  only : directiveComments text parsed switches = [c]
  off : ∃ name expression, Directive.parse c.comment.text c.firstLine
    = some ⟨.switch name, expression, c.firstLine⟩ ∧ switches.flag? name = some false

theorem LoneSwitch.mem_comments (h : LoneSwitch text parsed switches c) :
  c.comment ∈ parsed.comments ∧ isDirective c.comment.text switches = true
  := by
  have hc : c ∈ directiveComments text parsed switches := by
    rw [h.only]
    exact List.mem_singleton_self c
  obtain ⟨hmem, hdirective⟩ := List.mem_filter.mp hc
  obtain ⟨k, hk, rfl⟩ := exists_of_mem_sourceComments hmem
  exact ⟨hk, hdirective⟩

/-- A switch that is off takes the line on which it starts and the one behind it. -/
theorem LoneSwitch.ranges_eq (h : LoneSwitch text parsed o.switches c) :
  (processParsed text parsed o).ranges = [⟨c.firstLine, c.firstLine + 1⟩]
  := by
  obtain ⟨name, expression, hparse, hoff⟩ := h.off
  let r := o.resolver
  let d : Directive := ⟨.switch name, expression, c.firstLine⟩
  have hdirectives : collectDirectives (((sourceComments text parsed).map fun c =>
      (c.comment.text, c.firstLine)).filter fun c => isDirective c.1 r.switches) = [d] := by
    have honly : (sourceComments text parsed).filter
        ((fun c => isDirective c.1 r.switches) ∘ fun c => (c.comment.text, c.firstLine)) = [c] :=
      h.only
    rw [List.filter_map, honly, collectDirectives, List.map_singleton, List.filterMap_cons, hparse]
    rfl
  have happly : r.apply {} d = _ := Resolver.apply_eq_of_step (.switched rfl rfl hoff)
  have hranges : (r.resolve [d]).ranges = [⟨c.firstLine, c.firstLine + 1⟩] := by
    rw [Resolver.resolve, Resolver.run_cons, happly]
    rfl
  rw [← hdirectives, Resolver.resolve_filter_isDirective] at hranges
  exact hranges

/-- Of a source text whose only directive is a switch that is off, all that is due goes with the line
on which the switch starts and the line behind it, unless it is spared, and nothing goes, blanks
apart, but what may go with the two lines.  If all code that goes starts behind the line of the
switch, it may go with the line behind alone. -/
theorem process_switch_off (hparse : parseSource text path = some parsed)
    (hmark : ¬Marked text.toList) (hends : ∀ k ∈ parsed.comments, k.EndsLine text.toList)
    (hswitch : LoneSwitch text parsed o.switches c) :
  let line := c.firstLine
  let both := Elision.ofParsed text parsed [⟨line, line + 1⟩] o.switches
  let next := Elision.ofParsed text parsed [⟨line + 1, line + 1⟩] o.switches
  let qs := Edit.pieces text (both.edits parsed.tree)
  (∀ s, both.excluded s = true ↔
    line ≤ (linesOf (lineStarts text) s).1 ∧ (linesOf (lineStarts text) s).2 ≤ line + 1) ∧
  (∀ s, next.excluded s = true ↔ linesOf (lineStarts text) s = (line + 1, line + 1)) ∧
  ∃ p, process text path o = some p ∧ p.ranges = [⟨line, line + 1⟩] ∧
    Edit.Assembles text p.output.code qs ∧
    ∀ q ∈ qs,
      (q.replacement = none → ∀ pos, q.lo ≤ pos → pos < q.hi → ¬c.comment.span.Has pos ∧
        ∀ t, both.Due parsed.tree t → ¬both.Spares parsed.tree t → ¬t.span.Has pos) ∧
      ∀ r, q.replacement = some r → r ∈ ["", "\x7b\x7d", "null"] ∧
        ∀ pos, InkAt text.toList pos → q.lo ≤ pos → pos < q.hi →
          both.Droppable parsed.tree parsed.comments pos ∧
          (both.StartsBehind parsed.tree line → next.Droppable parsed.tree parsed.comments pos)
  := by
  intro line both next qs
  have hsound := sound_parseSource hparse hmark
  have hranges : (processParsed text parsed o).ranges = [⟨line, line + 1⟩] := hswitch.ranges_eq
  have hcode : (processParsed text parsed o).output.code
      = (elide text parsed [⟨line, line + 1⟩] o.switches).code := by
    rw [← hranges]
    rfl
  refine ⟨fun s => Elision.excluded_iff, fun s => Elision.excluded_line_iff, _,
    process_of_parse hparse hmark o, hranges, hcode ▸ assembles_elide hsound, fun q hq => ⟨?_, ?_⟩⟩
  · intro hkept pos hlo hhi
    obtain ⟨hc, hdirective⟩ := hswitch.mem_comments
    constructor
    · intro hpos
      exact Elision.not_kept_of_directive hsound hc hdirective hq hkept hpos ⟨hlo, hhi⟩
    · intro t hdue hspares hpos
      exact Elision.not_kept_of_due hsound hdue hspares hq hkept hpos ⟨hlo, hhi⟩
  · intro r hr
    refine ⟨Elision.replacement_of_mem_pieces hsound hq hr, fun pos hink hlo hhi => ?_⟩
    obtain ⟨k, hk, hblank⟩ := hink
    refine ⟨Elision.droppable_of_replaced hsound hends hq hr hk hblank hlo hhi, fun hbehind => ?_⟩
    obtain ⟨edit, hedit, hpos⟩ := Edit.exists_mem_of_replaced
      (fun edit hedit => Elision.placed_of_mem_edits hsound hedit) hq hr hk hblank hlo hhi
    have hnarrows : both.Narrows [⟨line + 1, line + 1⟩] line := Elision.narrows_ofParsed line
    exact hnarrows.droppable hbehind hsound.tree hends hedit hpos ⟨k, hk, hblank⟩

theorem exists_of_lone {comments : List SourceComment} {p : SourceComment → Bool}
    (h : (comments.length == 1 && comments.all p) = true) :
  ∃ c, comments = [c] ∧ p c = true
  := by
  rw [Bool.and_eq_true, beq_iff_eq] at h
  obtain ⟨c, rfl⟩ := List.length_eq_one_iff.mp h.1
  exact ⟨c, rfl, by simpa using h.2⟩

/-- The statement behind a switch that is off goes. -/
theorem process_switch_off_statement :
  let text := "// #debug\nf();\ng();\n"
  let o : Options := { switches := [("debug", false)] }
  ∃ parsed c, parseSource text "a.js" = some parsed ∧ LoneSwitch text parsed o.switches c ∧
    let both := Elision.ofParsed text parsed [⟨1, 2⟩] o.switches
    let next := Elision.ofParsed text parsed [⟨2, 2⟩] o.switches
    let qs := Edit.pieces text (both.edits parsed.tree)
    qs.filterMap Edit.Piece.replacement = ["", ""] ∧ Edit.Assembles text "g();\n" qs ∧
    ∀ q ∈ qs,
      (q.replacement = none → ∀ pos, q.lo ≤ pos → pos < q.hi → ¬c.comment.span.Has pos ∧
        ∀ t, both.Due parsed.tree t → ¬both.Spares parsed.tree t → ¬t.span.Has pos) ∧
      ∀ r, q.replacement = some r → r ∈ ["", "\x7b\x7d", "null"] ∧
        ∀ pos, InkAt text.toList pos → q.lo ≤ pos → pos < q.hi →
          next.Droppable parsed.tree parsed.comments pos
  := by
  intro text o
  have h : (parseSource text "a.js").any (fun parsed =>
      (process text "a.js" o).any fun p =>
        (directiveComments text parsed o.switches).length == 1 &&
          (directiveComments text parsed o.switches).all fun c =>
            c.firstLine == 1 &&
              Directive.parse c.comment.text c.firstLine
                == some ⟨.switch "debug", none, c.firstLine⟩ &&
              decide
                ((Elision.ofParsed text parsed [⟨1, 2⟩] o.switches).StartsBehind parsed.tree 1) &&
              p.output.code == "g();\n" &&
              (Edit.pieces text ((Elision.ofParsed text parsed [⟨1, 2⟩] o.switches).edits
                parsed.tree)).filterMap Edit.Piece.replacement == ["", ""] &&
              parsed.comments.all fun k => (dropBytes k.span.hi text.toList).head? == some '\n')
      = true := by
    decide +kernel
  obtain ⟨parsed, hparse, h⟩ := (Option.any_eq_true _ _).mp h
  obtain ⟨p, hp, h⟩ := (Option.any_eq_true _ _).mp h
  obtain ⟨c, honly, h⟩ := exists_of_lone h
  simp only [Bool.and_eq_true, beq_iff_eq, decide_eq_true_eq, List.all_eq_true] at h
  obtain ⟨⟨⟨⟨⟨hfirst, hdirective⟩, hbehind⟩, hcode⟩, hreplaced⟩, hends⟩ := h
  have hends : ∀ k ∈ parsed.comments, k.EndsLine text.toList := by
    intro k hk
    exact Comment.endsLine_of_dropBytes (.inr (.inl (hends k hk)))
  have hswitch : LoneSwitch text parsed o.switches c := ⟨honly, _, _, hdirective, rfl⟩
  obtain ⟨-, -, p', hp', -, hqs, hpieces⟩ := process_switch_off hparse (by decide) hends hswitch
  obtain rfl := Option.some.inj (hp.symm.trans hp')
  rw [hcode] at hqs
  rw [hfirst] at hqs hpieces
  refine ⟨parsed, c, hparse, hswitch, hreplaced, hqs, fun q hq => ?_⟩
  obtain ⟨hkept, hgone⟩ := hpieces q hq
  refine ⟨hkept, fun r hr => ⟨(hgone r hr).1, fun pos hink hlo hhi => ?_⟩⟩
  exact ((hgone r hr).2 pos hink hlo hhi).2 hbehind

/-- The statement in front of a switch that is off, on its own line, goes with the one behind it. -/
theorem process_switch_off_takes_own_line :
  let text := "a(); // #debug\nb();\nc();\n"
  let o : Options := { switches := [("debug", false)] }
  ∃ parsed c p t, parseSource text "a.js" = some parsed ∧ LoneSwitch text parsed o.switches c ∧
    c.firstLine = 1 ∧ c.lastLine = 1 ∧ process text "a.js" o = some p ∧ parsed.tree.Below t ∧
    t.kind? = some (.statement .expression) ∧ linesOf (lineStarts text) t.span = (1, 1) ∧
    slice t.span.lo t.span.hi text.toList = "a();".toList ∧ p.output.code = "\nc();\n"
  := by
  intro text o
  have h : (parseSource text "a.js").any (fun parsed =>
      (process text "a.js" o).any fun p =>
        (directiveComments text parsed o.switches).length == 1 &&
          (directiveComments text parsed o.switches).all fun c =>
            c.firstLine == 1 && c.lastLine == 1 &&
              Directive.parse c.comment.text c.firstLine
                == some ⟨.switch "debug", none, c.firstLine⟩ &&
              p.output.code == "\nc();\n" &&
              parsed.tree.subtrees.any fun t => t.kind? == some (.statement .expression) &&
                linesOf (lineStarts text) t.span == (1, 1) &&
                slice t.span.lo t.span.hi text.toList == "a();".toList)
      = true := by
    decide +kernel
  obtain ⟨parsed, hparse, h⟩ := (Option.any_eq_true _ _).mp h
  obtain ⟨p, hp, h⟩ := (Option.any_eq_true _ _).mp h
  obtain ⟨c, honly, h⟩ := exists_of_lone h
  simp only [Bool.and_eq_true, beq_iff_eq, List.any_eq_true] at h
  obtain ⟨⟨⟨⟨hfirst, hlast⟩, hdirective⟩, hcode⟩, t, ht, ⟨hkind, hlines⟩, hslice⟩ := h
  exact ⟨parsed, c, p, t, hparse, ⟨honly, _, _, hdirective, rfl⟩, hfirst, hlast, hp,
    Tree.mem_subtrees_iff.mp ht, hkind, hlines, hslice, hcode⟩

/-- The statement behind a switch of two lines stays: its line is the third from where the switch
starts. -/
example :
  ((process "/* #debug\n */\nb();\nc();\n" "a.js" { switches := [("debug", false)] }).any fun p =>
    p.ranges == [⟨1, 2⟩] && p.output.code == "b();\nc();\n") = true
  := by decide +kernel

end Prune
