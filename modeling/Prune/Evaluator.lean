import Prune.Process

/-!
# Evaluators

A resolver does not decide conditions itself but asks an evaluator, which may have a memory
(`Evaluator`).  `resolveBy` is the run of a resolver that asks an evaluator.  There are two
evaluators: one without a memory (`Evaluator.sandbox`), and one that remembers the conditions
without a value (`Evaluator.collecting`), which is what the processing of a source text reports.
-/

namespace Prune

/-- What decides conditions, with the effects that it may have. -/
abbrev Evaluator (m : Type → Type) := String → m Bool

namespace Evaluator

/-- The evaluator that has no effect. -/
def sandbox (symbols : Condition.Symbols) : Evaluator Id :=
  fun text => return Condition.holds symbols text

/-- The evaluator that remembers the conditions without a value, each with the cause, in the order
in which they were asked for. -/
def collecting (symbols : Condition.Symbols) :
    Evaluator (StateM (List (String × Condition.Failure))) :=
  fun text =>
    match Condition.evaluate symbols text with
    | .ok v => return v.truthy
    | .error cause => do
      modify fun failures => failures ++ [(text, cause)]
      return false

end Evaluator

namespace Resolver

variable {m : Type → Type} [Monad m] (switches : Switches) (evaluator : Evaluator m)

/-- Asks an evaluator for a condition. A missing one is the empty text. -/
def askBy (s : State) (expression : Option String) : m (Outcome × State) := do
  let condition := expression.getD ""
  let b ← evaluator condition
  return (Outcome.ofBool b, { s with asked := s.asked ++ [condition] })

/-- Opens a chain. -/
def openChainBy (s : State) (line : Nat) (expression : Option String) : m State := do
  let (outcome, t) ←
    match s.outcome with
    | .taken => askBy evaluator s expression
    | .dropped | .skipped => pure (.skipped, s)
  return { t with
    stack :=
      { keyword := .opening, line := line, outcome := outcome, level := s.depth + 1,
        matched := outcome == .taken } :: t.stack }

/-- What becomes of the next branch of a chain. -/
def judgeBy (s : State) (frame : Frame) (keyword : Keyword) (expression : Option String) :
    m (Outcome × State) :=
  if frame.matched then return (.dropped, s)
  else if keyword == .otherwise then return (.taken, s)
  else askBy evaluator s expression

/-- Moves the innermost chain on to its next branch. -/
def nextBranchBy (s : State) (keyword : Keyword) (line : Nat) (expression : Option String) :
    m State :=
  match s.stack with
  | [] => return s
  | frame :: below =>
    if frame.keyword == .otherwise || frame.keyword == .closing then return s
    else
      match frame.outcome with
      | .skipped => return s
      | outcome => do
        let s := if outcome == .dropped then s.emit frame.line line else s
        let (next, s) ← judgeBy evaluator s frame keyword expression
        return { s with
          stack :=
            { keyword := keyword, line := line, outcome := next, level := frame.level,
              matched := frame.matched || next == .taken } :: below }

/-- The step of a resolver that asks an evaluator. -/
def applyBy (s : State) (d : Directive) : m State :=
  match d.kind with
  | .branch .opening => openChainBy evaluator s d.line d.expression
  | .branch .elif => nextBranchBy evaluator s .elif d.line d.expression
  | .branch .otherwise => nextBranchBy evaluator s .otherwise d.line none
  | .branch .closing => return closeChain s d.line
  | .switch name =>
    return if s.outcome == .taken && switches.flag? name == some false then
      s.emit d.line (d.line + 1)
    else s

/-- The run of a resolver that asks an evaluator, on directives that are sorted by line. -/
def resolveBy (ds : List Directive) : m State :=
  ds.foldlM (applyBy switches evaluator) {}

end Resolver

/-- What a resolver ends with that asks the evaluator without effects. -/
def Options.resolvePlain (o : Options) (ds : List Directive) : Resolver.State :=
  Id.run (Resolver.resolveBy o.switches (.sandbox o.symbols) ds)

/-- What a resolver ends with that collects the conditions without a value, and what it collected.
-/
def Options.resolveCollecting (o : Options) (ds : List Directive) :
    Resolver.State × List (String × Condition.Failure) :=
  (Resolver.resolveBy o.switches (.collecting o.symbols) ds).run []

end Prune
