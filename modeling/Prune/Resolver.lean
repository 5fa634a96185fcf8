import Prune.Directive
import Prune.LineRange
import Prune.Sort

/-!
# Resolution of branches

A resolver reads directives in the order of their lines and finds the lines to delete. It keeps one
frame for each open chain (`Frame`): the branch that is open, and whether some branch of the chain
was taken. When a branch that was not taken is left, its lines are emitted as a range.

A chain inside a branch that is not taken is skipped as a whole: none of its conditions is asked
for, and it emits nothing. A directive that fits nowhere (a second otherwise-branch, or a branch or
an end without a chain) changes nothing, and a chain that is never closed emits nothing for its
last branch.

`State.apply` is the step of the resolver, and `resolve` its run on a list of directives.
-/

namespace Prune

/-- What becomes of a branch. -/
inductive Outcome where
  /-- The branch is kept. -/
  | taken
  /-- The branch is deleted. -/
  | dropped
  /-- The branch lies in a deleted one. -/
  | skipped
deriving DecidableEq, Repr, Inhabited

/-- The outcome of a condition. -/
def Outcome.ofBool (b : Bool) : Outcome := if b then .taken else .dropped

/-- An open chain. -/
structure Frame where
  /-- The keyword of the open branch. -/
  keyword : Keyword
  /-- The line of its directive. -/
  line : Nat
  outcome : Outcome
  /-- The depth of the chain, one for an outermost one. -/
  level : Nat
  /-- Whether a branch of the chain was taken. -/
  matched : Bool
deriving DecidableEq, Repr, Inhabited

/-- Deletes by the switches, and asks for conditions. -/
structure Resolver where
  switches : Switches
  /-- Whether a condition holds. -/
  holds : String → Bool

namespace Resolver

/-- The state of a resolver: the open chains, innermost first, the ranges emitted and the conditions
asked for, both in order. -/
structure State where
  stack : List Frame := []
  ranges : List LineRange := []
  asked : List String := []
deriving DecidableEq, Repr, Inhabited

namespace State

/-- The number of open chains. -/
def depth (s : State) : Nat :=
  match s.stack with
  | [] => 0
  | frame :: _ => frame.level

/-- What becomes of the code at the point reached. -/
def outcome (s : State) : Outcome :=
  match s.stack with
  | [] => .taken
  | frame :: _ => frame.outcome

/-- Emits a range. -/
def emit (s : State) (first last : Nat) : State :=
  { s with ranges := s.ranges ++ [⟨first, last⟩] }

end State

variable (r : Resolver)

/-- Asks for a condition. A missing one is the empty text. -/
def ask (s : State) (expression : Option String) : Outcome × State :=
  let condition := expression.getD ""
  (Outcome.ofBool (r.holds condition), { s with asked := s.asked ++ [condition] })

/-- Opens a chain. -/
def openChain (s : State) (line : Nat) (expression : Option String) : State :=
  let (outcome, t) :=
    match s.outcome with
    | .taken => r.ask s expression
    | .dropped | .skipped => (.skipped, s)
  { t with
    stack :=
      { keyword := .opening, line := line, outcome := outcome, level := s.depth + 1,
        matched := outcome == .taken } :: t.stack }

/-- Moves the innermost chain on to its next branch. The first condition that holds decides: after
it no further one is asked for. -/
def nextBranch (s : State) (keyword : Keyword) (line : Nat) (expression : Option String) :
    State :=
  match s.stack with
  | [] => s
  | frame :: below =>
    if frame.keyword == .otherwise || frame.keyword == .closing then s
    else
      match frame.outcome with
      | .skipped => s
      | outcome =>
        let s := if outcome == .dropped then s.emit frame.line line else s
        let (next, s) :=
          if frame.matched then (.dropped, s)
          else if keyword == .otherwise then (.taken, s)
          else r.ask s expression
        { s with
          stack :=
            { keyword := keyword, line := line, outcome := next, level := frame.level,
              matched := frame.matched || next == .taken } :: below }

/-- Closes the innermost chain. -/
def closeChain (s : State) (line : Nat) : State :=
  match s.stack with
  | [] => s
  | frame :: below =>
    let s := { s with stack := below }
    if frame.outcome == .dropped then s.emit frame.line line else s

/-- Deletes the line after the directive of a switch that is off. -/
def applySwitch (s : State) (name : String) (line : Nat) : State :=
  if s.outcome == .taken && r.switches.flag? name == some false then s.emit line (line + 1)
  else s

/-- The step of the resolver for one directive. -/
def apply (s : State) (d : Directive) : State :=
  match d.kind with
  | .branch .opening => r.openChain s d.line d.expression
  | .branch .elif => r.nextBranch s .elif d.line d.expression
  | .branch .otherwise => r.nextBranch s .otherwise d.line none
  | .branch .closing => closeChain s d.line
  | .switch name => r.applySwitch s name d.line

/-- The run of the resolver from a given state. -/
def run (s : State) (ds : List Directive) : State :=
  ds.foldl r.apply s

/-- The run of the resolver on directives that are sorted by line. -/
def resolve (ds : List Directive) : State :=
  r.run {} ds

end Resolver

/-- The directives among comments, given by their texts and the lines they start on, sorted by
line. Directives on one line keep their order. -/
def collectDirectives (comments : List (String × Nat)) : List Directive :=
  sortBy (fun a b => a.line ≤ b.line)
    (comments.filterMap fun comment => Directive.parse comment.1 comment.2)

end Prune
