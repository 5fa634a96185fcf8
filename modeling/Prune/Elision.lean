import Prune.Directive
import Prune.Edit
import Prune.LineRange
import Prune.Source.Tree

/-!
# Elision

What is deleted from a source text, given its syntax tree and the ranges of lines to delete
(`Elision.run`). A node goes when all its lines lie in one range, and nothing below it is looked at
then. What going means depends on the series in which the node stands (`Source.Rule`). All comments
that are directives go, too.

An element of markup whose start tag or end tag goes alone collapses: the only child element that
stays takes its place, or the element goes if there is not exactly one (`Elision.visit`).
-/

namespace Prune

open Source (Tree Span Comment Rule Kind Place)

/-- The bytes at which the lines of a text start, the first one excepted: behind a line feed, a
carriage return, or both in this order. -/
def lineStartsFrom (pos : Nat) : List Char → List Nat
  | [] => []
  | c :: cs =>
    let next := pos + c.utf8Size
    if c == '\n' || (c == '\r' && cs.head? != some '\n') then next :: lineStartsFrom next cs
    else lineStartsFrom next cs

/-- The bytes at which the lines of a text start, counted without a byte order mark. -/
def lineStarts (text : String) : List Nat :=
  lineStartsFrom 0 (Text.withoutMark text.toList)

/-- The line of a byte, counted from one. -/
def lineAt (starts : List Nat) (pos : Nat) : Nat :=
  1 + starts.countP (· ≤ pos)

/-- The lines of the first and the last byte of a span. -/
def linesOf (starts : List Nat) (s : Span) : Nat × Nat :=
  (lineAt starts s.lo, lineAt starts (if s.lo < s.hi then s.hi - 1 else s.lo))

/-- What is known while a tree is walked through. -/
structure Elision where
  text : List Char
  starts : List Nat
  ranges : List LineRange
  /-- The spans of the comments that are directives. -/
  directives : List Span
  /-- The spans of the other comments. -/
  others : List Span

/-- What was found to delete. -/
structure Elision.Found where
  edits : List Edit := []
  /-- The number of nodes that go. -/
  removed : Nat := 0
  /-- The number of elements that a child takes the place of. -/
  spliced : Nat := 0
deriving DecidableEq, Repr, Inhabited

namespace Elision

/-- All that two searches found. -/
def Found.append (a b : Found) : Found :=
  ⟨a.edits ++ b.edits, a.removed + b.removed, a.spliced + b.spliced⟩

instance : Append Found := ⟨Found.append⟩

/-- Nothing. -/
def Found.none : Found := {}

/-- Where the search for a separator stands. -/
inductive Gap where
  | blank
  | lineComment
  /-- A comment in whose opening mark `skip` characters are still to come. -/
  | blockComment (skip : Nat)
  /-- The last character of a closing mark. -/
  | closing

/-- The byte of the first separator, past blanks and comments and nothing else. -/
def separatorFrom (separators : List Char) (gap : Gap) (pos : Nat) : List Char → Option Nat
  | [] => .none
  | c :: cs =>
    let next := pos + c.utf8Size
    match gap with
    | .blank =>
      if Text.isAsciiBlank c then separatorFrom separators .blank next cs
      else if c == '/' && cs.head? == some '/' then separatorFrom separators .lineComment next cs
      else if c == '/' && cs.head? == some '*' then
        separatorFrom separators (.blockComment 1) next cs
      else if separators.contains c then some pos
      else .none
    | .lineComment =>
      separatorFrom separators (if c == '\n' then .blank else .lineComment) next cs
    | .blockComment (skip + 1) => separatorFrom separators (.blockComment skip) next cs
    | .blockComment 0 =>
      if c == '*' && cs.head? == some '/' then separatorFrom separators .closing next cs
      else separatorFrom separators (.blockComment 0) next cs
    | .closing => separatorFrom separators .blank next cs

variable (e : Elision)

/-- Whether all lines of a span lie in one of the ranges. -/
def excluded (s : Span) : Bool :=
  let (first, last) := linesOf e.starts s
  LineRange.anyContains e.ranges first last

/-- The byte of the separator behind a byte; none behind a byte inside a character. -/
def separatorAfter? (separators : List Char) (pos : Nat) : Option Nat :=
  (Text.dropBytes? pos e.text).bind (separatorFrom separators .blank pos)

/-- A node that goes, and what takes its place. -/
def gone (s : Span) (replacement : String) : Found :=
  { edits := [⟨s.lo, s.hi, replacement⟩], removed := 1 }

/-- A member of a separated series that goes with the separator behind it. -/
def goneWithSeparator (separators : List Char) (s : Span) : Found :=
  match e.separatorAfter? separators s.hi with
  | some pos => gone ⟨s.lo, pos + 1⟩ ""
  | .none => gone s ""

/-- The separator behind the last member that stays, which goes when members behind it do. -/
def looseSeparator (separators : List Char) (kept : Option Span) : Found :=
  match kept.bind fun s => e.separatorAfter? separators s.hi with
  | some pos => { edits := [⟨pos, pos + 1, ""⟩] }
  | .none => .none

/-- Whether a tree is the empty place of an element of an array. -/
def isHole (t : Tree) : Bool :=
  t.kind? == some .hole

/-- Whether a member of a series goes; holes do not count. -/
def goesOrHole (t : Tree) : Bool :=
  isHole t || e.excluded t.span

/-- The span of the last member of a series that stays. -/
def lastKept? (items : List Tree) : Option Span :=
  ((items.filter fun t => !e.goesOrHole t).getLast?).map Tree.span

/-- Whether braces hold directives and no other comment. -/
def holdsDirectives (s : Span) : Bool :=
  e.directives.any (·.inside s) && !e.others.any (·.inside s)

/-- Whether a tree is an element of markup. -/
def isElement (t : Tree) : Bool :=
  match t.kind? with
  | some (.element _) => true
  | _ => false

/-- Whether a tree is braces among children without an expression in them. -/
def isEmptyContainer (t : Tree) : Bool :=
  t.kind? == some (.markup .emptyContainer)

/-- Whether a tree is a start tag or an end tag. -/
def isTag (t : Tree) : Bool :=
  match t.kind? with
  | some (.markup (.tag _)) | some (.markup .endTag) => true
  | _ => false

/-- Whether a child of an element is an element that stays. -/
def survives (t : Tree) : Bool :=
  isElement t && !e.excluded t.span

/-- The children of an element, given its parts. -/
def childrenOf (parts : List Tree) : List Tree :=
  parts.flatMap fun t =>
    match t with
    | .series .children items => items
    | _ => []

/-- Whether one of the tags of an element goes, given its parts. -/
def straddles (parts : List Tree) : Bool :=
  parts.any fun t => isTag t && e.excluded t.span

/-- The deletions before and behind the child that takes the place of an element. -/
def splice (outer inner : Span) : Found :=
  { edits := [⟨outer.lo, inner.lo, ""⟩, ⟨inner.hi, outer.hi, ""⟩], spliced := 1 }

mutual

/-- What goes in a tree, which stays unless it is markup where an expression may stand or a child
that was looked at before. An element that goes as a whole leaves `replacement` in its place. -/
def visit (replacement : String) : Tree → Found
  | .node (.element .attribute) _ parts => visitAll parts
  | .node (.element _) span parts =>
    if e.excluded span then gone span replacement
    else if e.straddles parts then
      match (childrenOf parts).filter e.survives with
      | [child] => splice span child.span ++ visitSurvivors replacement parts
      | _ => gone span replacement
    else visitAll parts
  | .node (.fragment .expression) span parts =>
    if e.excluded span then gone span replacement else visitAll parts
  | .node _ _ parts => visitAll parts
  | .series .block items => visitBlock items
  | .series .lone items => visitLone items
  | .series .list items => visitSeparated [','] true (e.lastKept? items) items
  | .series .declarators items =>
    if items.all e.goesOrHole then .none
    else visitSeparated [','] true (e.lastKept? items) items
  | .series .members items => visitSeparated [',', ';'] false .none items
  | .series .children items => visitChildren items

/-- What goes in some trees that stay. -/
def visitAll : List Tree → Found
  | [] => .none
  | t :: ts => visit "null" t ++ visitAll ts

/-- What goes of statements and their like. -/
def visitBlock : List Tree → Found
  | [] => .none
  | t :: ts => (if e.excluded t.span then gone t.span "" else visit "null" t) ++ visitBlock ts

/-- What goes of a lone statement, which leaves an empty block. -/
def visitLone : List Tree → Found
  | [] => .none
  | t :: ts =>
    (if e.excluded t.span then gone t.span "\x7b\x7d" else visit "null" t) ++ visitLone ts

/-- What goes of a separated series; if `tidy`, also the separator of the last member that stays
when members behind it go. -/
def visitSeparated (separators : List Char) (tidy : Bool) (kept : Option Span) :
    List Tree → Found
  | [] => .none
  | t :: ts =>
    let found :=
      if isHole t then .none
      else if e.excluded t.span then
        e.goneWithSeparator separators t.span
          ++ if tidy && ts.all e.goesOrHole then e.looseSeparator separators kept else .none
      else visit "null" t
    found ++ visitSeparated separators tidy kept ts

/-- What goes of the children of an element. -/
def visitChildren : List Tree → Found
  | [] => .none
  | t :: ts =>
    let found :=
      if e.excluded t.span then gone t.span ""
      else if isEmptyContainer t && e.holdsDirectives t.span then
        { edits := [⟨t.span.lo, t.span.hi, ""⟩] }
      else visit "" t
    found ++ visitChildren ts

/-- What goes of the child that takes the place of an element, given the parts of the element. -/
def visitSurvivors (replacement : String) : List Tree → Found
  | [] => .none
  | .series .children items :: ts =>
    visitSurvivor replacement items ++ visitSurvivors replacement ts
  | _ :: ts => visitSurvivors replacement ts

/-- What goes of the child that takes the place of an element, given the children. -/
def visitSurvivor (replacement : String) : List Tree → Found
  | [] => .none
  | t :: ts =>
    (if e.survives t then visit replacement t else .none) ++ visitSurvivor replacement ts

end

/-- The elision of a text: its walk, given the ranges of lines to delete and the switches. -/
def ofParsed (text : String) (parsed : Source.Parsed) (ranges : List LineRange)
    (switches : Switches) : Elision :=
  { text := text.toList, starts := lineStarts text, ranges := ranges,
    directives := (parsed.comments.filter fun c => isDirective c.text switches).map Comment.span,
    others := (parsed.comments.filter fun c => !isDirective c.text switches).map Comment.span }

/-- The edits that an elision makes: those of the walk, and the deletion of all directives. -/
def edits (e : Elision) (root : Tree) : List Edit :=
  (e.visit "null" root).edits ++ e.directives.map fun s => ⟨s.lo, s.hi, ""⟩

end Elision

/-- A text after the elision. -/
structure Output where
  code : String
  /-- The number of nodes that went. -/
  removed : Nat
  /-- The number of elements that a child took the place of. -/
  spliced : Nat
  /-- The number of comments that went because they were directives. -/
  stripped : Nat
deriving DecidableEq, Repr, Inhabited

/-- Whether anything went. -/
def Output.changed (o : Output) : Bool :=
  0 < o.removed || 0 < o.spliced || 0 < o.stripped

/-- The text that is left of a source text when the nodes in some ranges of lines and all
directives go. -/
def elide (text : String) (parsed : Source.Parsed) (ranges : List LineRange)
    (switches : Switches) : Output :=
  let elision := Elision.ofParsed text parsed ranges switches
  let found := elision.visit "null" parsed.tree
  { code := Edit.applyAll text (elision.edits parsed.tree),
    removed := found.removed, spliced := found.spliced, stripped := elision.directives.length }

/-- Whether a source text can be cut as its elision cuts it. The spans of trees and comments do not
count a byte order mark, so that the parts of a text behind one may be cut inside a character. -/
def canElide (text : String) (parsed : Source.Parsed) (ranges : List LineRange)
    (switches : Switches) : Bool :=
  Edit.areSound text ((Elision.ofParsed text parsed ranges switches).edits parsed.tree)

end Prune
