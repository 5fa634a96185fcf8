import Mathlib.Tactic.Use
import Prune.Condition.Eval

/-!
# Chains of links

A chain goes from an expression over links: members, indices and calls of methods, none of them in
parentheses (`Expr.Linked`, `Expr.Chain`).  If its first link is an optional one and the expression
that it starts from is undefined or null, then evaluation ends there: the rest of the chain is not
looked at, and the chain is undefined (`Expr.eval_of_chain`).
-/

namespace Prune.Condition.Expr

variable {symbols : Symbols}

/-- `Linked link object e` says that `e` is one step from `object` over a link of the kind `link`: a
member of `object`, or the call of a method of `object` as it stands. -/
inductive Linked (link : Source.Link) (object : Expr) : Expr → Prop where
  | member (key : String) : Linked link object (.member link object key)
  | index (key : Expr) : Linked link object (.index link object key)
  | callMember (key : String) (call : Source.Link) (arguments : List Item) :
      Linked link object (.call call (.member link object key) arguments)
  | callIndex (key : Expr) (call : Source.Link) (arguments : List Item) :
      Linked link object (.call call (.index link object key) arguments)

/-- `Chain start e` says that `e` is a chain of links from `start` whose first link is an optional
one. -/
inductive Chain (start : Expr) : Expr → Prop where
  | first {e : Expr} (h : Linked .optional start e) : Chain start e
  | next {e f : Expr} (link : Source.Link) (he : Chain start e) (hf : Linked link e f) :
      Chain start f

/-- If a chain has ended, then a link from it does not start a new one. -/
theorem Linked.run_of_ended {link : Source.Link} {object e : Expr} (h : Linked link object e)
    (hobject : run symbols object = .ok none) :
  run symbols e = .ok none
  := by
  cases h with
  | member key => rw [run, hobject]; rfl
  | index key => rw [run, hobject]; rfl
  | callMember key call arguments => rw [run, runCall, hobject]; rfl
  | callIndex key call arguments => rw [run, runCall, hobject]; rfl

/-- An optional link from an expression that is undefined or null ends the chain. -/
theorem Linked.run_of_isNullish {object e : Expr} {v : Value} (h : Linked .optional object e)
    (hobject : run symbols object = .ok (some v)) (hv : v.isNullish = true) :
  run symbols e = .ok none
  := by
  have hends : endsChain .optional v = true := hv
  cases h with
  | member key =>
      rw [run, hobject]
      apply if_pos hends
  | index key =>
      rw [run, hobject]
      apply if_pos hends
  | callMember key call arguments =>
      rw [run, runCall, hobject]
      apply if_pos hends
  | callIndex key call arguments =>
      rw [run, runCall, hobject]
      apply if_pos hends

/-- The value of an expression is what it is run to, where a chain that has ended is undefined. -/
theorem eval_eq_ok_iff {e : Expr} {v : Value} :
  e.eval symbols = .ok v ↔ ∃ result, run symbols e = .ok result ∧ result.getD .undefined = v
  := by
  rw [eval]
  cases run symbols e <;> simp [bind, Except.bind, pure, Except.pure]

/-- A chain that starts with an optional link from an expression that is undefined or null has
ended. -/
theorem Chain.run_eq {start e : Expr} {v : Value} (h : Chain start e)
    (hstart : start.eval symbols = .ok v) (hv : v.isNullish = true) :
  run symbols e = .ok none
  := by
  induction h with
  | first hlinked =>
      obtain ⟨result, hrun, rfl⟩ := eval_eq_ok_iff.mp hstart
      cases result with
      | none => apply hlinked.run_of_ended hrun
      | some w => apply hlinked.run_of_isNullish hrun hv
  | next link he hf ih => apply hf.run_of_ended ih

/-- A chain of any length that starts with an optional link from an expression that is undefined or
null is undefined, whatever its keys and arguments are. -/
theorem eval_of_chain {start e : Expr} {v : Value} (h : Chain start e)
    (hstart : start.eval symbols = .ok v) (hv : v.isNullish = true) :
  e.eval symbols = .ok .undefined
  := by
  apply eval_eq_ok_iff.mpr
  use none, h.run_eq hstart hv
  rfl

/-- In `a?.[f()].b(...c)[d]`, where `a` is null, the key `f()`, the argument `...c` and the key `d`
are errors that evaluation does not come to. -/
theorem eval_of_chain_null :
  (name "d").eval [("a", .null)] = .error (.undefinedName "d")
    ∧ (index .plain (call .plain (member .plain
        (index .optional (name "a") (call .plain (name "f") [])) "b") [.spread])
        (name "d")).eval [("a", .null)] = .ok .undefined
  := by
  have hfirst : Chain (name "a") (index .optional (name "a") (call .plain (name "f") [])) :=
    .first (.index _)
  have hcall := hfirst.next .plain (.callMember "b" .plain [.spread])
  constructor
  · rfl
  · apply eval_of_chain (hcall.next .plain (.index (name "d"))) (v := .null)
    · rfl
    · rfl

/-- In `(a?.b).c` the parentheses end the chain at `b`, and undefined has no member `c`. -/
example :
    ((member .plain (paren (member .optional (name "a") "b")) "c").eval [("a", .null)]).isOk
      = false := by
  rfl

end Prune.Condition.Expr
