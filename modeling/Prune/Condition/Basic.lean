import Prune.Condition.Eval
import Prune.Source.Parse

/-!
# Conditions

A condition is the text of one expression. It is read in parentheses that are put around it
(`parse`), so that no text can be more than an expression, and has a value over a table of symbols
(`evaluate`). A condition that has none does not hold (`holds`).
-/

namespace Prune.Condition

/-- A cause for which a condition has no value. -/
inductive Failure where
  /-- The text is no expression. -/
  | notExpression (text : String)
  /-- The text is more than an expression. -/
  | notSingle (text : String)
  | eval (cause : EvalError)
deriving DecidableEq, Repr, Inhabited

/-- The wording of a cause.  What a reader may say besides of a text that is no expression, where it
stopped and what it looked for there, is left out: it depends on the reader alone, and on nothing that
a condition means. -/
def Failure.message : Failure → String
  | .notExpression text => "invalid expression `" ++ text ++ "`"
  | .notSingle text => "`" ++ text ++ "` is not a single expression"
  | .eval cause => cause.message

/-- The expression that a text is. -/
def parse (text : String) : Except Failure Expr :=
  if (Text.trim text).isEmpty then .error (.eval .emptyText)
  else
    match Source.parseScript ("(" ++ text ++ "\n)") with
    | none => .error (.notExpression text)
    | some [.node (.statement .expression) _ [e]] => .ok (Expr.ofTree e)
    | some _ => .error (.notSingle text)

/-- The value of a condition. -/
def evaluate (symbols : Symbols) (text : String) : Except Failure Value := do
  let e ← parse text
  match e.eval symbols with
  | .ok v => .ok v
  | .error cause => .error (.eval cause)

/-- Whether a condition holds. One without a value does not. -/
def holds (symbols : Symbols) (text : String) : Bool :=
  match evaluate symbols text with
  | .ok v => v.truthy
  | .error _ => false

/-- The conditions among some that have no value, each with the cause. -/
def failures (symbols : Symbols) (texts : List String) : List (String × Failure) :=
  texts.filterMap fun text =>
    match evaluate symbols text with
    | .ok _ => none
    | .error cause => some (text, cause)

end Prune.Condition
