import Prune.Condition.Basic
import Prune.Elision
import Prune.Path
import Prune.Resolver

/-!
# Processing of a source text

A source text is parsed, its directives are collected and resolved to ranges of lines, and what lies
in the ranges is deleted (`process`). Only parsing is meant to fail; where a text would be cut inside
a character, the program crashes (`Mishap`).
-/

namespace Prune

/-- What decides which branches stay. -/
structure Options where
  symbols : Condition.Symbols := []
  switches : Switches := []
deriving Inhabited

/-- What is known of a source text after processing. -/
structure Processed where
  directives : List Directive
  ranges : List LineRange
  output : Output
  /-- The conditions that have no value, in the order in which they were asked for. -/
  failures : List (String × Condition.Failure)
deriving Inhabited

/-- The directive on a line. -/
def Processed.directiveAt? (p : Processed) (line : Nat) : Option Directive :=
  p.directives.find? fun d => d.line == line

/-- Whether the texts of a file may hold markup: all but those with an extension for types alone. -/
def hasMarkup (path : String) : Bool :=
  match Path.extension? path with
  | some extension => !(["ts", "mts", "cts"].contains extension)
  | none => true

/-- The syntax tree and the comments of a source text. -/
def parseSource (text path : String) : Option Source.Parsed :=
  Source.parseModule (hasMarkup path) text

/-- A comment with the lines on which it starts and ends. -/
structure SourceComment where
  comment : Source.Comment
  firstLine : Nat
  lastLine : Nat
deriving Repr, Inhabited

/-- A comment with the lines on which it starts and ends, given the bytes at which lines start. -/
def SourceComment.of (starts : List Nat) (c : Source.Comment) : SourceComment :=
  let (first, last) := linesOf starts c.span
  ⟨c, first, last⟩

/-- The comments of a source text in the order in which they stand, in whatever order they are
given. Of comments that start at one place, the first that is given counts. -/
def sourceComments (text : String) (parsed : Source.Parsed) : List SourceComment :=
  let comments := parsed.comments.map (SourceComment.of (lineStarts text))
  (sortBy (fun a b => a.comment.span.lo ≤ b.comment.span.lo) comments).eraseRepsBy
    fun a b => a.comment.span.lo == b.comment.span.lo

/-- The resolver that the options give. -/
def Options.resolver (o : Options) : Resolver :=
  { switches := o.switches, holds := Condition.holds o.symbols }

/-- Processes a source text that was parsed. -/
def processParsed (text : String) (parsed : Source.Parsed) (o : Options) : Processed :=
  let comments := sourceComments text parsed
  let directives := collectDirectives (comments.map fun c => (c.comment.text, c.firstLine))
  let state := o.resolver.resolve directives
  { directives := directives,
    ranges := state.ranges,
    output := elide text parsed state.ranges o.switches,
    failures := Condition.failures o.symbols state.asked }

/-- Processes a source text that was parsed; none if it would be cut inside a character. -/
def processParsed? (text : String) (parsed : Source.Parsed) (o : Options) : Option Processed :=
  let p := processParsed text parsed o
  if canElide text parsed p.ranges o.switches then some p else none

/-- Why nothing comes of a source text. -/
inductive Mishap where
  | unparsable
  /-- The text would be cut inside a character, which brings the program down. -/
  | crash
deriving DecidableEq, Repr, Inhabited

/-- Processes a source text, and says why nothing comes of it. -/
def tryProcess (text path : String) (o : Options) : Except Mishap Processed :=
  match parseSource text path with
  | none => .error .unparsable
  | some parsed =>
    match processParsed? text parsed o with
    | none => .error .crash
    | some p => .ok p

/-- Processes a source text; none if nothing comes of it. -/
def process (text path : String) (o : Options) : Option Processed :=
  (tryProcess text path o).toOption

end Prune
