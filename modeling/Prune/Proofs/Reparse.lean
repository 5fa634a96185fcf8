import Mathlib.Data.List.Basic
import Prune.Proofs.Comments
import Prune.Proofs.Edit.Pieces
import Prune.Proofs.Elision.Staying
import Prune.Proofs.Resolver.Stack

/-!
# Reading the output again

The output of processing need not be a source text again: the comma between a name and the braces of
an import goes with the last name in the braces.  It is one for texts of which no comment vanishes,
since these come out as they are: their directives are those of switches that are not known, which
emit no range (`Resolver.resolve_eq_of_unknown`), and without ranges and directives nothing goes
(`Elision.visit_eq_none`).
-/

namespace Prune

open Source.Tree (each_of_forall)

/-! ### Directives of switches that are not known -/

/-- The line of a comment is that of its directive, and has no further influence. -/
theorem Directive.parse_eq_map (text : String) (line : Nat) :
  Directive.parse text line = (Directive.parse text 0).map fun d => { d with line := line }
  := by
  simp only [Directive.parse]
  split
  · rfl
  · simp [Function.comp_def]

/-- The directive of a comment that does not vanish is one of a switch that is not known. -/
theorem flag_eq_none_of_parse {text : String} {switches : Switches} {line : Nat} {d : Directive}
    (h : isDirective text switches = false) (hd : Directive.parse text line = some d) :
  ∃ name, d.kind = .switch name ∧ switches.flag? name = none
  := by
  rw [Directive.parse_eq_map] at hd
  obtain ⟨d', hd', rfl⟩ := Option.map_eq_some_iff.mp hd
  simp only [isDirective, hd'] at h
  cases hk : d'.kind with
  | branch keyword => simp [hk] at h
  | switch name => exact ⟨name, rfl, by simpa [hk] using h⟩

/-- Directives of switches that are not known emit nothing and ask for nothing. -/
theorem Resolver.resolve_eq_of_unknown {r : Resolver} {ds : List Directive}
    (h : ∀ d ∈ ds, ∃ name, d.kind = .switch name ∧ r.switches.flag? name = none) :
  r.resolve ds = {}
  := by
  apply run_induction (P := fun s => s = {})
  · rintro _ d hd rfl
    obtain ⟨name, hk, hflag⟩ := h d hd
    apply apply_eq_of_step
    apply Step.unswitched hk
    right
    simp [hflag]
  · rfl

/-! ### Processing -/

theorem Text.dropBytes_zero (cs : List Char) :
  dropBytes 0 cs = cs
  := by
  cases cs with
  | nil => rfl
  | cons c cs => simp [dropBytes]

theorem Edit.applyAll_nil (text : String) :
  Edit.applyAll text [] = text
  := by
  simp [applyAll, sortBy, merge, applyFrom, Text.dropBytes_zero]

namespace Elision

variable {text : String} {parsed : Source.Parsed} {ranges : List LineRange} {switches : Switches}

theorem directives_eq_nil (h : ∀ c ∈ parsed.comments, isDirective c.text switches = false) :
  (ofParsed text parsed ranges switches).directives = []
  := by
  apply List.eq_nil_iff_forall_not_mem.mpr
  intro s hs
  obtain ⟨c, hc, hdirective, -⟩ := mem_directives_iff.mp hs
  simp [h c hc] at hdirective

/-- Without ranges, and without comments that vanish, there is nothing to delete. -/
theorem edits_eq_nil (h : ∀ c ∈ parsed.comments, isDirective c.text switches = false) :
  (ofParsed text parsed [] switches).edits parsed.tree = []
  := by
  rw [edits, directives_eq_nil h,
    visit_eq_none _ (each_of_forall (stays_of_nil rfl (directives_eq_nil h)) _)]
  rfl

end Elision

/-- Without ranges, and without comments that vanish, a text can be cut, and comes out as it is. -/
theorem elide_code_eq {text : String} {parsed : Source.Parsed} {switches : Switches}
    (h : ∀ c ∈ parsed.comments, isDirective c.text switches = false) :
  canElide text parsed [] switches = true ∧ (elide text parsed [] switches).code = text
  := by
  constructor
  · rw [canElide, Elision.edits_eq_nil h]
    exact Edit.areSound_of_placed (List.forall_mem_nil _)
  · rw [Elision.code_elide, Elision.edits_eq_nil h]
    apply Edit.applyAll_nil

/-- No range comes from comments of which none vanishes. -/
theorem resolve_sourceComments_eq {text : String} {parsed : Source.Parsed} {o : Options}
    (h : ∀ c ∈ parsed.comments, isDirective c.text o.switches = false) :
  o.resolver.resolve (collectDirectives ((sourceComments text parsed).map
    fun c => (c.comment.text, c.firstLine))) = {}
  := by
  apply Resolver.resolve_eq_of_unknown
  intro d hd
  obtain ⟨comment, hmem, hparse⟩ := List.mem_filterMap.mp (mem_sortBy_iff.mp hd)
  obtain ⟨source, hsource, rfl⟩ := List.mem_map.mp hmem
  obtain ⟨c, hc, rfl⟩ := exists_of_mem_sourceComments hsource
  apply flag_eq_none_of_parse (h c hc) hparse

/-- A source text of which no comment vanishes comes out as it is, with no range. -/
theorem process_of_no_directive {text path : String} {parsed : Source.Parsed}
    (hparse : parseSource text path = some parsed) (o : Options)
    (h : ∀ c ∈ parsed.comments, isDirective c.text o.switches = false) :
  process text path o = some (processParsed text parsed o) ∧
    (processParsed text parsed o).ranges = [] ∧ (processParsed text parsed o).output.code = text
  := by
  have hranges : (processParsed text parsed o).ranges = [] := by
    simp only [processParsed, resolve_sourceComments_eq h]
  refine ⟨process_of_canElide hparse ?_, hranges, ?_⟩
  · rw [hranges]
    exact (elide_code_eq h).1
  · simp only [processParsed, resolve_sourceComments_eq h]
    exact (elide_code_eq h).2

/-- A source text of which no comment vanishes can be parsed again. -/
theorem output_parsed_of_no_directive {text path : String} {parsed : Source.Parsed}
    (hparse : parseSource text path = some parsed) (o : Options)
    (h : ∀ c ∈ parsed.comments, isDirective c.text o.switches = false) :
  ∃ p, process text path o = some p ∧ p.output.code = text ∧
    parseSource p.output.code path = some parsed
  := by
  obtain ⟨hprocess, -, hcode⟩ := process_of_no_directive hparse o h
  refine ⟨_, hprocess, hcode, ?_⟩
  rw [hcode]
  exact hparse

/-- An import whose braces lose their last name: the comma before the braces goes, too. -/
theorem output_not_parsed_of_import :
  let text := "import D, \x7b\n  // #debug\n  trace\n\x7d from 'm';\n"
  let o : Options := { switches := [("debug", false)] }
  (parseSource text "a.js").isSome = true ∧
    ∃ p, process text "a.js" o = some p ∧ p.output.code = "import D \x7b\n\x7d from 'm';\n" ∧
      (parseSource p.output.code "a.js").isSome = false
  := by
  intro text o
  have hparse : (parseSource text "a.js").isSome = true := by
    decide +kernel
  have h : (process text "a.js" o).any (fun p =>
      p.output.code == "import D \x7b\n\x7d from 'm';\n" &&
        !(parseSource p.output.code "a.js").isSome) = true := by
    decide +kernel
  obtain ⟨p, hp, hcode⟩ := (Option.any_eq_true _ _).mp h
  rw [Bool.and_eq_true, beq_iff_eq, Bool.not_eq_true'] at hcode
  exact ⟨hparse, p, hp, hcode⟩

end Prune
