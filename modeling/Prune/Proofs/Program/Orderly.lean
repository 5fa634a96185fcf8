import Mathlib.Data.List.Basic
import Prune.Proofs.Program.Nesting
import Prune.Proofs.Program.Simple

/-!
# Texts that come out as texts

Processing gives a source text again, with the tree that is left of its own, if all it takes out are
whole lines of a program and members of its lists, or if it takes nothing out (`Orderly`).  Other
texts may lose a mark or a blank between two of their words, and be no source text any more or one
with another tree.
-/

namespace Prune

open Source

/-- Whether processing takes nothing out of a text, or whole lines and members of lists: the text is
that of a program that no range cuts through, and the lists of which lose no hole. -/
inductive Orderly (o : Options) (path : String) : String → Prop where
  | still {text : String} {parsed : Parsed} (hparse : parseSource text path = some parsed)
      (h : ∀ c ∈ parsed.comments, isDirective c.text o.switches = false) : Orderly o path text
  | program {p : Program} (hclosed : p.Closed (Program.items path))
      (hwhole : p.Whole (p.ranges o) 1)
      (hholes : p.KeepsHoles (Elision.ofParsed p.source p.parsed (p.ranges o) o.switches) 0) :
      Orderly o path p.source

variable {o : Options} {path text : String}

/-- A program is orderly if its directives are well nested and its lists have no holes. -/
theorem Program.Closed.orderly {p : Program} (h : p.Closed (items path))
    (hnested : p.Nested o.switches 1) (hfull : p.Full) :
  Orderly o path p.source
  := .program h hnested.whole (hfull.keepsHoles 0)

/-! ### A program -/

namespace Identifier

/-- The name `run`. -/
def run : Identifier :=
  ⟨'r', ['u', 'n'], rfl, List.all_eq_true.mp rfl, by decide +kernel⟩

/-- The name `trace`. -/
def trace : Identifier :=
  ⟨'t', ['r', 'a', 'c', 'e'], rfl, List.all_eq_true.mp rfl, by decide +kernel⟩

end Identifier

namespace Program

/-- Names on lines of their own, the first of them behind a directive. -/
def sampleNames : Cells :=
  let lines (n : Nat) : List Filler := .blank '\n' :: List.replicate n (.blank ' ')
  .cons ⟨lines 4 ++ .line " #debug".toList :: List.replicate 4 (.blank ' '),
      some Identifier.trace.leaf, []⟩
    (.last ⟨lines 4, some Identifier.run.leaf, lines 2⟩)

/-- A program in which a switch stands in a function and another in a list there, and the function
in a branch.  -/
def sample : Program :=
  .remark [] (.line " #if fast".toList) <|
  .phrase [] (.call .run) <|
  .remark [] (.line " #else".toList) <|
  .compound [] (.function .run)
    (.remark [' ', ' '] (.line " #debug".toList) <|
    .phrase [' ', ' '] (.call .trace) <|
    .listing [' ', ' '] (.call .run) sampleNames <|
    .nil)
    [] <|
  .remark [] (.line " #endif".toList) <|
  .nil

theorem sampleNames_sound :
  sampleNames.Sound IsName false
  where
    fillers := by
      simp [sampleNames, Cells.fillers, Cells.row, Cell.slot, Row.fillers, Slot.fillers,
        Filler.Sound, isLineEnd]
    members := by
      simp [sampleNames, Cells.leaves, IsName]
    full _ := ⟨rfl, trivial⟩

theorem sample_simple :
  sample.Simple
  := by
  have hnone : Indent [] := by simp [Indent]
  have hsome : Indent [' ', ' '] := by simp [Indent]
  apply Simple.remark hnone (by simp [isLineEnd])
  apply Simple.call hnone
  apply Simple.remark hnone (by simp [isLineEnd])
  apply Simple.function hnone hnone
  · apply Simple.remark hsome (by simp [isLineEnd])
    apply Simple.call hsome
    apply Simple.list hsome _ sampleNames_sound
    exact .nil
  · apply Simple.remark hnone (by simp [isLineEnd])
    exact .nil

theorem sample_full :
  sample.Full
  := ⟨⟨sampleNames_sound.full rfl, trivial⟩, trivial⟩

end Program

/-! ### What comes out -/

/-- What comes of an orderly text is a source text. -/
theorem output_parsed_of_orderly (h : Orderly o path text) :
  ∃ p parsed, process text path o = some p ∧ parseSource p.output.code path = some parsed
  := by
  cases h with
  | still hparse h =>
      obtain ⟨p, hprocess, -, hparse⟩ := output_parsed_of_no_directive hparse o h
      exact ⟨p, _, hprocess, hparse⟩
  | program hclosed hwhole hholes =>
      obtain ⟨p, p', hprocess, -, -, hparse, -⟩ := hclosed.process_eq hwhole hholes
      exact ⟨p, _, hprocess, hparse⟩

/-- A branch goes, and in the function that stays a call and a member of a list. -/
theorem output_parsed_of_orderly_sample :
  let text := "// #if fast\nrun();\n// #else\nfunction run() \x7b\n"
    ++ "  // #debug\n  trace();\n"
    ++ "  run(\n    // #debug\n    trace,\n    run\n  );\n\x7d\n// #endif\n"
  let o : Options := { switches := [("debug", false)] }
  Orderly o "a.ts" text ∧ ∃ p parsed, process text "a.ts" o = some p ∧
    parseSource p.output.code "a.ts" = some parsed
  := by
  intro text o
  have hsource : Program.sample.source = text := by decide +kernel
  have hwhole : Program.sample.Whole (Program.sample.ranges o) 1 := by decide +kernel
  have horderly : Orderly o "a.ts" text := by
    rw [← hsource]
    exact .program (Program.sample_simple.closed (Program.statements_items _)) hwhole
      (Program.sample_full.keepsHoles 0)
  exact ⟨horderly, output_parsed_of_orderly horderly⟩

/-- What comes of an orderly text has the tree that is left of that of the text. -/
theorem shape_output_of_orderly (h : Orderly o path text) :
  ∃ parsed p parsed', parseSource text path = some parsed ∧ process text path o = some p ∧
    parseSource p.output.code path = some parsed' ∧
    parsed'.tree.shape
      = ((Elision.ofParsed text parsed p.ranges o.switches).pruned parsed.tree).shape
  := by
  cases h with
  | still hparse h =>
      obtain ⟨p, parsed', hprocess, hparse', hshape⟩ := shape_output_of_no_directive hparse o h
      exact ⟨_, p, parsed', hparse, hprocess, hparse', hshape⟩
  | program hclosed hwhole hholes =>
      obtain ⟨p, p', hprocess, hranges, -, hparse, hshape⟩ := hclosed.process_eq hwhole hholes
      refine ⟨_, p, _, hclosed.parseSource_eq, hprocess, hparse, ?_⟩
      rw [hranges]
      exact hshape

/-- A function goes with all that is in it. -/
theorem shape_output_of_orderly_sample :
  let text := "// #if fast\nrun();\n// #else\nfunction run() \x7b\n"
    ++ "  // #debug\n  trace();\n"
    ++ "  run(\n    // #debug\n    trace,\n    run\n  );\n\x7d\n// #endif\n"
  let o : Options := { symbols := [("fast", .bool true)] }
  Orderly o "a.ts" text ∧
    ∃ parsed p parsed', parseSource text "a.ts" = some parsed ∧ process text "a.ts" o = some p ∧
      parseSource p.output.code "a.ts" = some parsed' ∧
      parsed'.tree.shape
        = ((Elision.ofParsed text parsed p.ranges o.switches).pruned parsed.tree).shape
  := by
  intro text o
  have hsource : Program.sample.source = text := by decide +kernel
  have hwhole : Program.sample.Whole (Program.sample.ranges o) 1 := by decide +kernel
  have horderly : Orderly o "a.ts" text := by
    rw [← hsource]
    exact .program (Program.sample_simple.closed (Program.statements_items _)) hwhole
      (Program.sample_full.keepsHoles 0)
  exact ⟨horderly, shape_output_of_orderly horderly⟩

end Prune
