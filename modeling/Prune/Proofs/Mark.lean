import Prune.Proofs.Elision.Likeness
import Prune.Proofs.Outcome

/-!
# Byte order marks

A byte order mark at the front of a text is not read, and neither the spans of trees and comments nor
lines count it.  So a text behind a mark has the directives and the ranges that it has without one,
and as much goes from it (`process_marked`), since the text itself is looked at for separators alone
(`Elision.evens_withText`).

But what goes is cut out of the text with its mark, where each part stands three bytes behind its
offset.  So a text that changes need not come out behind its mark as it does without one
(`process_marked_ne`), and it does not come out at all if it would be cut inside a character.
-/

namespace Prune

open Source

variable {text path : String} {parsed : Parsed}

theorem Text.withoutMark_append (hmark : ¬Marked text.toList) :
  withoutMark ("\uFEFF" ++ text).toList = withoutMark text.toList
  := by
  rw [withoutMark_of_not_marked hmark, String.toList_append]
  rfl

theorem parseSource_append (hmark : ¬Text.Marked text.toList) :
  parseSource ("\uFEFF" ++ text) path = parseSource text path
  := by
  simp only [parseSource, parseModule, Text.withoutMark_append hmark]

theorem lineStarts_append (hmark : ¬Text.Marked text.toList) :
  lineStarts ("\uFEFF" ++ text) = lineStarts text
  := by
  rw [lineStarts, lineStarts, Text.withoutMark_append hmark]

theorem sourceComments_append (hmark : ¬Text.Marked text.toList) (parsed : Parsed) :
  sourceComments ("\uFEFF" ++ text) parsed = sourceComments text parsed
  := by
  simp only [sourceComments, lineStarts_append hmark]

/-! ### What goes -/

namespace Elision

/-- Whether as much goes in one search as in another. -/
structure Evens (a b : Found) : Prop where
  removed : a.removed = b.removed
  spliced : a.spliced = b.spliced

theorem removed_append (a b : Found) :
  (a ++ b).removed = a.removed + b.removed
  := rfl

theorem Evens.append {a b c d : Found} (hab : Evens a b) (hcd : Evens c d) :
  Evens (a ++ c) (b ++ d)
  := by
  constructor
  · rw [removed_append, removed_append, hab.removed, hcd.removed]
  · rw [spliced_append, spliced_append, hab.spliced, hcd.spliced]

/-- An elision with another text to look for separators in. -/
def withText (e : Elision) (text : List Char) : Elision :=
  { e with text := text }

/-- As much goes whatever the text is: a member goes with or without a separator. -/
theorem evens_withText (e : Elision) (cs : List Char) :
  Alike Evens (e.withText cs) e
  := by
  constructor
  · exact fun a => ⟨rfl, rfl⟩
  · exact Evens.append
  · rfl
  · rfl
  · intro separators s
    unfold goneWithSeparator
    constructor
    · split <;> split <;> rfl
    · split <;> split <;> rfl
  · intro separators kept
    unfold looseSeparator
    constructor
    · split <;> split <;> rfl
    · split <;> split <;> rfl

end Elision

/-- The elision of a text behind a byte order mark differs from that of the text in the code alone. -/
theorem elide_marked (hmark : ¬Text.Marked text.toList) (parsed : Parsed) (ranges : List LineRange)
    (switches : Switches) :
  elide ("\uFEFF" ++ text) parsed ranges switches
    = { elide text parsed ranges switches with
        code := (elide ("\uFEFF" ++ text) parsed ranges switches).code }
  := by
  let e := Elision.ofParsed text parsed ranges switches
  have hmarked : Elision.ofParsed ("\uFEFF" ++ text) parsed ranges switches
      = e.withText ("\uFEFF" ++ text).toList := by
    simp only [Elision.ofParsed, lineStarts_append hmark, e, Elision.withText]
  have hevens := (Elision.evens_withText e ("\uFEFF" ++ text).toList).visit "null" parsed.tree
  simp only [elide, hmarked, Output.mk.injEq, true_and]
  exact ⟨hevens.removed, hevens.spliced, rfl⟩

/-! ### What comes of a text -/

theorem processParsed_marked (hmark : ¬Text.Marked text.toList) (parsed : Parsed) (o : Options) :
  let p := processParsed text parsed o
  let p' := processParsed ("\uFEFF" ++ text) parsed o
  p' = { p with output := { p.output with code := p'.output.code } }
  := by
  intro p p'
  have hcomments := sourceComments_append hmark parsed
  have helide := elide_marked hmark parsed p.ranges o.switches
  simp only [p, p', processParsed, hcomments, Processed.mk.injEq, true_and, and_true]
  exact helide

/-- No comment vanishes from a text that does not change. -/
theorem not_directive_of_changed_eq_false {o : Options}
    (h : (processParsed text parsed o).output.changed = false) :
  ∀ c ∈ parsed.comments, isDirective c.text o.switches = false
  := by
  intro c hc
  by_contra hdirective
  have hchanged : (processParsed text parsed o).output.changed = true :=
    changed_eq_true hc (by simpa using hdirective)
  rw [hchanged] at h
  contradiction

/-- A text behind a byte order mark can be parsed just when the text can.  Something comes of it then
if it can be cut where its tree and its comments tell, and this differs in the code alone.  If the
text does not change, it comes out behind its mark. -/
theorem process_marked (hmark : ¬Text.Marked text.toList) (path : String) (o : Options) :
  let marked := "\uFEFF" ++ text
  parseSource marked path = parseSource text path ∧
    (process text path o).isSome = (parseSource text path).isSome ∧
    ∀ parsed, parseSource text path = some parsed →
      let p := processParsed text parsed o
      let p' := processParsed marked parsed o
      process text path o = some p ∧
      p' = { p with output := { p.output with code := p'.output.code } } ∧
      process marked path o
        = (if canElide marked parsed p.ranges o.switches then some p' else none) ∧
      (p.output.changed = false → process marked path o
        = some { p with output := { p.output with code := "\uFEFF" ++ p.output.code } })
  := by
  intro marked
  have hparses : parseSource marked path = parseSource text path := parseSource_append hmark
  refine ⟨hparses, ?_, fun parsed hparse => ?_⟩
  · cases hparse : parseSource text path with
    | none =>
        rw [process_eq, hparse]
        rfl
    | some parsed =>
        rw [process_of_parse hparse hmark]
        rfl
  · intro p p'
    have hsame : p' = { p with output := { p.output with code := p'.output.code } } :=
      processParsed_marked hmark parsed o
    have hparse' : parseSource marked path = some parsed := hparses.trans hparse
    refine ⟨process_of_parse hparse hmark o, hsame, ?_, fun hchanged => ?_⟩
    · have hranges : p'.ranges = p.ranges := by rw [hsame]
      rw [process_eq, hparse', Option.bind_some, ← hranges]
      rfl
    · have hno := not_directive_of_changed_eq_false hchanged
      have hcode : p.output.code = text := (process_of_no_directive hparse o hno).2.2
      obtain ⟨hprocess, -, hcode'⟩ := process_of_no_directive hparse' o hno
      change p'.output.code = marked at hcode'
      rw [hcode'] at hsame
      rw [hprocess, hcode]
      exact congrArg some hsame

/-- A comment whose switch is not known stays where it is behind a mark. -/
theorem process_marked_region :
  let text := "f();\n// #region helpers\ng();\n"
  ¬Text.Marked text.toList ∧
    ∃ p p', process text "a.js" {} = some p ∧ process ("\uFEFF" ++ text) "a.js" {} = some p' ∧
      p'.directives = p.directives ∧ p'.directives.length = 1 ∧
      p'.output.code = "\uFEFFf();\n// #region helpers\ng();\n"
  := by
  intro text
  have hmark : ¬Text.Marked text.toList := by decide
  have h : (parseSource text "a.js").any (fun parsed =>
      let p := processParsed text parsed {}
      p.directives.length == 1 && p.output.code == text && !p.output.changed) = true := by
    decide +kernel
  obtain ⟨parsed, hparse, h⟩ := (Option.any_eq_true _ _).mp h
  simp only [Bool.and_eq_true, beq_iff_eq, Bool.not_eq_true'] at h
  obtain ⟨⟨hlength, hcode⟩, hchanged⟩ := h
  obtain ⟨-, -, hprocess⟩ := process_marked hmark "a.js" {}
  obtain ⟨hp, -, -, hp'⟩ := hprocess parsed hparse
  refine ⟨hmark, _, _, hp, hp' hchanged, rfl, hlength, ?_⟩
  rw [hcode]
  rfl

/-- The same nodes and directives go from a text behind a byte order mark, but each deletion comes
three bytes early. -/
theorem process_marked_ne :
  let text := "a();\n// #if A\nb();\n// #endif\nc();\n"
  ∃ p p', process text "a.js" {} = some p ∧ process ("\uFEFF" ++ text) "a.js" {} = some p' ∧
    p.output.code = "a();\nc();\n" ∧ p'.output.code = "\uFEFFa(f(dif\nc();\n" ∧
    p'.output.code ≠ "\uFEFF" ++ p.output.code
  := by
  intro text
  have h : (process text "a.js" {}).any (fun p =>
      (process ("\uFEFF" ++ text) "a.js" {}).any fun p' =>
        p.output.code == "a();\nc();\n" && p'.output.code == "\uFEFFa(f(dif\nc();\n") = true := by
    decide +kernel
  obtain ⟨p, hp, h⟩ := (Option.any_eq_true _ _).mp h
  obtain ⟨p', hp', h⟩ := (Option.any_eq_true _ _).mp h
  simp only [Bool.and_eq_true, beq_iff_eq] at h
  obtain ⟨hcode, hcode'⟩ := h
  refine ⟨p, p', hp, hp', hcode, hcode', ?_⟩
  rw [hcode, hcode']
  decide

/-- The mark itself would be cut: the directive is told to start two bytes behind its front. -/
example :
  let text := "a;// #debug\n"
  let o : Options := { switches := [("debug", true)] }
  (process text "a.js" o).isSome = true ∧ (process ("\uFEFF" ++ text) "a.js" o).isSome = false
  := by decide +kernel

end Prune
