import Mathlib.Data.List.Basic
import Prune.Process
import Prune.Proofs.Edit.Application
import Prune.Proofs.Elision.Deletions
import Prune.Proofs.Source.Soundness

/-!
# When something comes of a source text

Something comes of a source text that can be parsed and cut (`process_eq_some_iff`).  The trees and
comments of a text without a byte order mark start and end between characters, so that such a text
can always be cut: something comes of it as soon as it can be parsed (`process_of_parse`).
-/

namespace Prune

open Source

variable {text path : String} {parsed : Parsed} {ranges : List LineRange} {switches : Switches}
  {o : Options} {p : Processed}

/-- Processing is parsing, and processing of what was parsed. -/
theorem process_eq (text path : String) (o : Options) :
  process text path o = (parseSource text path).bind fun parsed => processParsed? text parsed o
  := by
  rw [process, tryProcess]
  cases parseSource text path with
  | none => rfl
  | some parsed =>
      simp only [Option.bind_some]
      cases processParsed? text parsed o with
      | none => rfl
      | some p => rfl

theorem processParsed?_eq_some_iff :
  processParsed? text parsed o = some p ↔
    canElide text parsed (processParsed text parsed o).ranges o.switches = true ∧
      processParsed text parsed o = p
  := by
  simp [processParsed?]

/-- Something comes of a text that can be parsed and cut. -/
theorem process_eq_some_iff :
  process text path o = some p ↔ ∃ parsed, parseSource text path = some parsed ∧
    canElide text parsed (processParsed text parsed o).ranges o.switches = true ∧
      processParsed text parsed o = p
  := by
  simp only [process_eq, Option.bind_eq_some_iff, processParsed?_eq_some_iff]

theorem parsed_of_process (h : process text path o = some p) :
  ∃ parsed, parseSource text path = some parsed ∧ p = processParsed text parsed o
  := by
  obtain ⟨parsed, hparse, -, rfl⟩ := process_eq_some_iff.mp h
  exact ⟨parsed, hparse, rfl⟩

theorem process_of_canElide (hparse : parseSource text path = some parsed)
    (hcan : canElide text parsed (processParsed text parsed o).ranges o.switches = true) :
  process text path o = some (processParsed text parsed o)
  := process_eq_some_iff.mpr ⟨parsed, hparse, hcan, rfl⟩

/-! ### Texts without a byte order mark -/

theorem sound_parseSource (hparse : parseSource text path = some parsed)
    (hmark : ¬Text.Marked text.toList) :
  parsed.Sound text.toList
  := sound_parseModule hmark hparse

/-- A text is cut between characters if its tree and its comments are laid out in it. -/
theorem canElide_of_sound (hsound : parsed.Sound text.toList) (ranges : List LineRange)
    (switches : Switches) :
  canElide text parsed ranges switches = true
  := Edit.areSound_of_placed fun _ => Elision.placed_of_mem_edits hsound

/-- Something comes of each text without a byte order mark that can be parsed. -/
theorem process_of_parse (hparse : parseSource text path = some parsed)
    (hmark : ¬Text.Marked text.toList) (o : Options) :
  process text path o = some (processParsed text parsed o)
  := process_of_canElide hparse (canElide_of_sound (sound_parseSource hparse hmark) _ _)

end Prune
