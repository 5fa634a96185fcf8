import Prune.Process

/-!
# Reports

What the commands tell the user, as texts of whole lines. A palette (`Palette`) says whether texts
are painted by escape sequences of terminals; padding counts to the painted text.
-/

namespace Prune

/-- How a text is painted. -/
inductive Ink where
  | bold
  | dimmed
  | red
  | green
  | yellow
  | blue
  | cyan
deriving DecidableEq, Repr, Inhabited

/-- The code of an ink on terminals. -/
def Ink.code : Ink → String
  | .bold => "1"
  | .dimmed => "2"
  | .red => "31"
  | .green => "32"
  | .yellow => "33"
  | .blue => "34"
  | .cyan => "36"

/-- Whether texts are painted. -/
structure Palette where
  colored : Bool := false
deriving Repr, Inhabited

namespace Palette

/-- The character that starts an escape sequence. -/
def escape : String := String.singleton (Char.ofNat 27)

/-- The sequence that ends all painting. -/
def reset : String := escape ++ "[0m"

/-- A text with given inks. Painting goes on where the text itself ends it. -/
def paint (p : Palette) (inks : List Ink) (text : String) : String :=
  if p.colored then
    let start := escape ++ "[" ++ String.intercalate ";" (inks.map Ink.code) ++ "m"
    start ++ String.intercalate (reset ++ start) (text.splitOn reset) ++ reset
  else text

end Palette

namespace Report

/-- A text with blanks in front up to a width. -/
def padStart (width : Nat) (text : String) : String :=
  String.ofList (List.replicate (width - text.length) ' ') ++ text

/-- A text with blanks behind up to a width. -/
def padEnd (width : Nat) (text : String) : String :=
  text ++ String.ofList (List.replicate (width - text.length) ' ')

/-- The greatest of numbers. -/
def greatest (numbers : List Nat) : Nat :=
  numbers.foldl max 0

/-- A number of things. -/
def counted (count : Nat) (one many : String) : String :=
  toString count ++ " " ++ if count == 1 then one else many

/-- A number of files. -/
def files (count : Nat) : String :=
  counted count "file" "files"

/-- A line that begins with a mark. -/
def marked (p : Palette) (ink : Ink) (mark text : String) : String :=
  p.paint [ink] mark ++ " " ++ p.paint [ink] text ++ "\n"

/-- A line about a success. -/
def success (p : Palette) (text : String) : String :=
  marked p .green "✓" text

/-- A line about a command that was not carried out. -/
def refusal (p : Palette) (text : String) : String :=
  marked p .red "✘" text

/-- A line about an error. -/
def error (p : Palette) (text : String) : String :=
  p.paint [.bold, .red] "error:" ++ " " ++ text ++ "\n"

/-- A line of warning. -/
def warning (p : Palette) (text : String) : String :=
  p.paint [.bold, .yellow] "warning:" ++ " " ++ text ++ "\n"

/-- The ranges of a file, each with the directive that opened it. -/
def ranges (p : Palette) (path : String) (processed : Processed) : String :=
  let label (r : LineRange) : String := toString r.first ++ "-" ++ toString r.last
  let width := greatest (processed.ranges.map fun r => (label r).length)
  let line (r : LineRange) : String :=
    let directive := ((processed.directiveAt? r.first).map Directive.render).getD ""
    "  " ++ p.paint [.blue] (padStart width (label r)) ++ "  "
      ++ p.paint [.dimmed, .cyan] directive ++ "\n"
  if processed.ranges.isEmpty then ""
  else p.paint [.bold] path ++ "\n" ++ String.join (processed.ranges.map line)

/-- The line at the end of a check. -/
def checkSummary (p : Palette) (fileCount rangeCount filesWithRanges : Nat) : String :=
  let found :=
    if rangeCount == 0 then "nothing to exclude"
    else counted rangeCount "excluded range" "excluded ranges" ++ " in " ++ files filesWithRanges
  success p ("Checked " ++ files fileCount ++ " - " ++ found)

/-- What happened to a text. -/
def describe (o : Output) : String :=
  let part (count : Nat) (one many deed : String) : List String :=
    if count == 0 then [] else [counted count one many ++ " " ++ deed]
  String.intercalate ", "
    (part o.removed "node" "nodes" "removed" ++ part o.spliced "element" "elements" "unwrapped"
      ++ part o.stripped "directive" "directives" "stripped")

/-- The files that change, a line each. The width of the paths is counted in bytes. -/
def changes (p : Palette) (changed : List (String × Output)) : String :=
  let width := greatest (changed.map fun c => c.1.utf8ByteSize)
  String.join (changed.map fun (path, output) =>
    "  " ++ padEnd width path ++ "  " ++ p.paint [.dimmed] (describe output) ++ "\n")

/-- The line at the end of a build. -/
def buildSummary (p : Palette) (fileCount changedCount : Nat) (outDir : String)
    (applied : Bool) : String :=
  if applied then
    success p ("Wrote " ++ files fileCount ++ " to " ++ outDir ++ " (" ++ toString changedCount
      ++ " transformed)")
  else
    toString changedCount ++ " of " ++ files fileCount ++ " would change. Run with "
      ++ p.paint [.cyan] "--apply" ++ " to write them to " ++ outDir ++ "\n"

/-- The files that could not be processed: each error if details are wanted, and otherwise only
their number. -/
def failures (p : Palette) (verbose : Bool) (errors : List String) : String :=
  if errors.isEmpty then ""
  else if verbose then String.join (errors.map (error p))
  else
    error p (files errors.length ++ " could not be processed (use " ++ p.paint [.cyan] "-v"
      ++ " for details)")

/-- The conditions of a file that have no value, each with the reason. -/
def conditionFailures (p : Palette) (path : String) (failed : List (String × String)) : String :=
  String.join (failed.map fun (condition, reason) =>
    warning p (path ++ ": could not evaluate `" ++ condition ++ "`, treated as false: " ++ reason))

end Report

end Prune
