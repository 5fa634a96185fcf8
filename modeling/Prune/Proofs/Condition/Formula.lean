import Prune.Condition.Basic
import Prune.Proofs.Source.Scripts

/-!
# Formulas

Conditions that are made of names by negation, conjunction, disjunction and choice (`Formula`).  A
formula has a value in the logic that goes from left to right and has errors (`Formula.value`).  Its
texts have parentheses around each operator with its operands (`Formula.Spelled`), and among them is
the one with single blanks (`Formula.render`).  The expression of a formula (`Formula.expr`) has a
value that counts as true if that of the formula is true, and none if that of the formula is an
error (`Formula.eval_expr`).
-/

namespace Prune.Condition

open Source

/-- A name that formulas are made of: neither a word of the grammar nor the name of a value. -/
structure Formula.Name where
  head : Char
  tail : List Char
  isIdentStart : Text.isIdentStart head = true
  isIdentPart : ∀ c ∈ head :: tail, Text.isIdentPart c = true
  notKeyword : String.ofList (head :: tail) ∉ reservedWords ++ ["async", "await"]
  notValue : String.ofList (head :: tail) ∉ ["undefined", "NaN", "Infinity"]

/-- The text of a name. -/
def Formula.Name.text (x : Formula.Name) : String :=
  String.ofList (x.head :: x.tail)

/-- A formula. -/
inductive Formula where
  | name (x : Formula.Name)
  | not (f : Formula)
  | and (f g : Formula)
  | or (f g : Formula)
  /-- The second formula if the first is true, the third if it is false. -/
  | choice (f g h : Formula)

namespace Formula

/-- The value of a formula over a table of symbols, in which none stands for an error.  Operands are
looked at from left to right, and only those that are needed. -/
def value (symbols : Symbols) : Formula → Option Bool
  | .name x => (Table.get? symbols x.text).map fun json => (Value.ofJson json).truthy
  | .not f => (value symbols f).map (!·)
  | .and f g => (value symbols f).bind fun b => if b then value symbols g else some false
  | .or f g => (value symbols f).bind fun b => if b then some true else value symbols g
  | .choice f g h => (value symbols f).bind fun b => if b then value symbols g else value symbols h

/-- Whether a text spells out a formula: each operator is applied in parentheses, and blanks stand
anywhere around the operators and in the parentheses. -/
inductive Spelled : Formula → List Char → Prop where
  | name (x : Name) : Spelled (.name x) (x.head :: x.tail)
  | not {f : Formula} {cs b₁ b₂ b₃ : List Char} (hf : Spelled f cs)
      (h₁ : Blank b₁) (h₂ : Blank b₂) (h₃ : Blank b₃) :
      Spelled (.not f) ('(' :: (b₁ ++ '!' :: (b₂ ++ cs ++ (b₃ ++ [')']))))
  | and {f g : Formula} {cs ds b₁ b₂ b₃ b₄ : List Char} (hf : Spelled f cs) (hg : Spelled g ds)
      (h₁ : Blank b₁) (h₂ : Blank b₂) (h₃ : Blank b₃) (h₄ : Blank b₄) :
      Spelled (.and f g) ('(' :: (b₁ ++ cs ++ (b₂ ++ '&' :: '&' :: (b₃ ++ ds ++ (b₄ ++ [')'])))))
  | or {f g : Formula} {cs ds b₁ b₂ b₃ b₄ : List Char} (hf : Spelled f cs) (hg : Spelled g ds)
      (h₁ : Blank b₁) (h₂ : Blank b₂) (h₃ : Blank b₃) (h₄ : Blank b₄) :
      Spelled (.or f g) ('(' :: (b₁ ++ cs ++ (b₂ ++ '|' :: '|' :: (b₃ ++ ds ++ (b₄ ++ [')'])))))
  | choice {f g h : Formula} {cs ds es b₁ b₂ b₃ b₄ b₅ b₆ : List Char}
      (hf : Spelled f cs) (hg : Spelled g ds) (hh : Spelled h es)
      (h₁ : Blank b₁) (h₂ : Blank b₂) (h₃ : Blank b₃) (h₄ : Blank b₄) (h₅ : Blank b₅)
      (h₆ : Blank b₆) :
      Spelled (.choice f g h)
        ('(' ::
          (b₁ ++ cs ++ (b₂ ++ '?' :: (b₃ ++ ds ++ (b₄ ++ ':' :: (b₅ ++ es ++ (b₆ ++ [')'])))))))

/-- The text of a formula with single blanks around the operators between operands. -/
def render : Formula → List Char
  | .name x => x.head :: x.tail
  | .not f => '(' :: '!' :: (render f ++ [')'])
  | .and f g => '(' :: (render f ++ ' ' :: '&' :: '&' :: ' ' :: (render g ++ [')']))
  | .or f g => '(' :: (render f ++ ' ' :: '|' :: '|' :: ' ' :: (render g ++ [')']))
  | .choice f g h =>
    '(' :: (render f ++ ' ' :: '?' :: ' ' :: (render g ++ ' ' :: ':' :: ' ' :: (render h ++ [')'])))

theorem spelled_render (f : Formula) :
  Spelled f f.render
  := by
  have hempty : Blank [] := List.forall_mem_nil _
  have hblank : Blank [' '] := List.forall_mem_singleton.mpr (by decide)
  induction f with
  | name x => exact .name x
  | not f ih => simpa [render] using Spelled.not ih hempty hempty hempty
  | and f g ihf ihg => simpa [render] using Spelled.and ihf ihg hempty hblank hblank hempty
  | or f g ihf ihg => simpa [render] using Spelled.or ihf ihg hempty hblank hblank hempty
  | choice f g h ihf ihg ihh =>
      simpa [render] using Spelled.choice ihf ihg ihh hempty hblank hblank hblank hblank hempty

/-- The expression of a formula. -/
def expr : Formula → Expr
  | .name x => .name x.text
  | .not f => .paren (.unary .not (expr f))
  | .and f g => .paren (.binary .and (expr f) (expr g))
  | .or f g => .paren (.binary .or (expr f) (expr g))
  | .choice f g h => .paren (.conditional (expr f) (expr g) (expr h))

end Formula

/-! ### Evaluation -/

namespace Expr

variable (symbols : Symbols) (e f g : Expr)

attribute [local simp] eval run

theorem eval_name (text : String) :
  (Expr.name text).eval symbols = lookup symbols text
  := by
  rw [eval, run]
  cases lookup symbols text <;> rfl

theorem eval_paren :
  (Expr.paren e).eval symbols = e.eval symbols
  := by
  rw [eval, eval, run]
  cases run symbols e <;> rfl

theorem eval_not :
  (Expr.unary .not e).eval symbols = (e.eval symbols).map fun v => .bool !v.truthy
  := by
  rw [eval, eval]
  simp only [run]
  cases run symbols e <;> rfl

theorem eval_and :
  (Expr.binary .and e f).eval symbols
    = (e.eval symbols >>= fun v => if v.truthy then f.eval symbols else .ok v)
  := by
  simp only [eval, run]
  cases run symbols e with
  | error cause => rfl
  | ok v =>
      cases hv : (v.getD .undefined).truthy with
      | false => simp [bind, Except.bind, pure, Except.pure, BinaryOp.stops, hv]
      | true =>
          cases run symbols f <;>
            simp [bind, Except.bind, pure, Except.pure, BinaryOp.stops, BinaryOp.isLogical, hv]

theorem eval_or :
  (Expr.binary .or e f).eval symbols
    = (e.eval symbols >>= fun v => if v.truthy then .ok v else f.eval symbols)
  := by
  simp only [eval, run]
  cases run symbols e with
  | error cause => rfl
  | ok v =>
      cases hv : (v.getD .undefined).truthy with
      | false =>
          cases run symbols f <;>
            simp [bind, Except.bind, pure, Except.pure, BinaryOp.stops, BinaryOp.isLogical, hv]
      | true => simp [bind, Except.bind, pure, Except.pure, BinaryOp.stops, hv]

theorem eval_conditional :
  (Expr.conditional e f g).eval symbols
    = (e.eval symbols >>= fun v => if v.truthy then f.eval symbols else g.eval symbols)
  := by
  simp only [eval, run]
  cases run symbols e with
  | error cause => rfl
  | ok v =>
      cases hv : (v.getD .undefined).truthy with
      | false => cases run symbols g <;> simp [bind, Except.bind, pure, Except.pure, hv]
      | true => cases run symbols f <;> simp [bind, Except.bind, pure, Except.pure, hv]

end Expr

namespace Formula

theorem Name.lookup_eq (symbols : Symbols) (x : Name) :
  (lookup symbols x.text).toOption = (Table.get? symbols x.text).map Value.ofJson
  := by
  have hvalue : x.text ∉ ["undefined", "NaN", "Infinity"] := x.notValue
  simp only [List.mem_cons, List.not_mem_nil, or_false, not_or] at hvalue
  unfold lookup
  cases Table.get? symbols x.text with
  | some json => rfl
  | none => simp [Except.toOption, hvalue]

/-- The expression of a formula has the value of the formula. -/
theorem eval_expr (symbols : Symbols) (f : Formula) :
  (f.expr.eval symbols).toOption.map Value.truthy = f.value symbols
  := by
  induction f with
  | name x =>
      rw [expr, value, Expr.eval_name, Name.lookup_eq, Option.map_map]
      rfl
  | not f ih =>
      rw [expr, value, ← ih, Expr.eval_paren, Expr.eval_not]
      cases f.expr.eval symbols with
      | error cause => rfl
      | ok v => rfl
  | and f g ihf ihg =>
      rw [expr, value, ← ihf, ← ihg, Expr.eval_paren, Expr.eval_and]
      cases f.expr.eval symbols with
      | error cause => rfl
      | ok v => cases hv : v.truthy <;> simp [bind, Except.bind, Except.toOption, hv]
  | or f g ihf ihg =>
      rw [expr, value, ← ihf, ← ihg, Expr.eval_paren, Expr.eval_or]
      cases f.expr.eval symbols with
      | error cause => rfl
      | ok v => cases hv : v.truthy <;> simp [bind, Except.bind, Except.toOption, hv]
  | choice f g h ihf ihg ihh =>
      rw [expr, value, ← ihf, ← ihg, ← ihh, Expr.eval_paren, Expr.eval_conditional]
      cases f.expr.eval symbols with
      | error cause => rfl
      | ok v => cases hv : v.truthy <;> simp [bind, Except.bind, Except.toOption, hv]

end Formula

end Prune.Condition
