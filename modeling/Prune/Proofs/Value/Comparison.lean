import Mathlib
import Prune.Value.Compare

/-!
# Laws of comparison

The four comparisons of values do not depend on the order of the two values: the equalities are
symmetric, and the order turns around (`Value.comparison_laws`).  Equality up to conversion converts
one of the values, or both, and compares the results anew (`Value.conversion?`, `Value.Compares`);
this ends after two conversions at most, whatever is nested in the values.
-/

namespace Prune

namespace Number

open Float.Model (UnpackedFloat)

/-! ### Comparison of doubles -/

/-- The order of two unpacked doubles turns around with them. -/
theorem compare_unpacked_swap (a b : UnpackedFloat) :
  b.compare a = (a.compare b).map Ordering.swap
  := by
  cases a with
  | notANumber => cases b <;> rfl
  | infinity s =>
      cases b with
      | infinity t => cases s <;> cases t <;> rfl
      | _ => cases s <;> rfl
  | zero s =>
      cases b with
      | infinity t => cases t <;> rfl
      | finite t n f hn => cases t <;> rfl
      | _ => rfl
  | finite s m e hm =>
      cases b with
      | notANumber => cases s <;> rfl
      | infinity t => cases s <;> cases t <;> rfl
      | zero t => cases s <;> rfl
      | finite t n f hn =>
          -- Of one sign, the exponents decide and then the mantissas.
          have hswap : (Ord.compare f e).then (Ord.compare n m)
              = ((Ord.compare e f).then (Ord.compare m n)).swap := by
            rw [Ordering.swap_then, Int.compare_swap, Nat.compare_swap]
          cases s <;> cases t <;> simp [UnpackedFloat.compare, hswap]

theorem beq_eq_compare (x y : Float) :
  (x == y) = (x.toModel.unpack.compare y.toModel.unpack == some .eq)
  := rfl

theorem lt_iff_compare (x y : Float) :
  x < y ↔ x.toModel.unpack.compare y.toModel.unpack = some .lt
  := by
  change Float.lt x y = true ↔ _
  rw [Float.lt, decide_eq_true_iff]
  change UnpackedFloat.lt _ _ = true ↔ _
  rw [UnpackedFloat.lt, beq_iff_eq]

/-- Equality of doubles is symmetric. -/
theorem beq_comm (x y : Float) :
  (x == y) = (y == x)
  := by
  rw [beq_eq_compare, beq_eq_compare, compare_unpacked_swap x.toModel.unpack]
  cases x.toModel.unpack.compare y.toModel.unpack with
  | none => rfl
  | some o => cases o <;> rfl

end Number

namespace Value

/-- The order of two numbers is that of the doubles that they are. -/
theorem compareNumbers_eq (x y : Float) :
  compareNumbers x y = x.toModel.unpack.compare y.toModel.unpack
  := by
  rw [compareNumbers, Number.beq_eq_compare]
  simp only [Number.lt_iff_compare, Number.compare_unpacked_swap x.toModel.unpack]
  cases x.toModel.unpack.compare y.toModel.unpack with
  | none => rfl
  | some o => cases o <;> rfl

theorem compareNumbers_swap (x y : Float) :
  compareNumbers y x = (compareNumbers x y).map Ordering.swap
  := by
  rw [compareNumbers_eq, compareNumbers_eq, Number.compare_unpacked_swap]

theorem compareTexts_swap (s t : String) :
  compareTexts t s = (compareTexts s t).swap
  := by
  unfold compareTexts
  obtain h | rfl | h := lt_trichotomy s t
  · simp [h, h.ne', h.not_gt]
  · simp
  · simp [h, h.ne', h.not_gt]

/-- The order of two values turns around with them. -/
theorem compare_swap (a b : Value) :
  compare b a = (compare a b).map Ordering.swap
  := by
  unfold compare
  generalize a.toPrimitive = p, b.toPrimitive = q
  cases p with
  | string s =>
      cases q with
      | string t => exact congrArg some (compareTexts_swap s t)
      | _ => exact compareNumbers_swap _ _
  | _ => cases q <;> exact compareNumbers_swap _ _

/-! ### Equality without conversion -/

/-- Equality without conversion is symmetric. -/
theorem strictEquals_comm (a b : Value) :
  strictEquals a b = strictEquals b a
  := by
  cases a <;> cases b <;> simp only [strictEquals, Bool.beq_comm]
  exact Number.beq_comm _ _

/-- Equality for which `NaN` equals itself is symmetric. -/
theorem sameValue_comm (a b : Value) :
  sameValue a b = sameValue b a
  := by
  cases a <;> cases b <;> simp only [sameValue, strictEquals, Bool.beq_comm]
  rw [Number.beq_comm, Bool.and_comm]

/-- Values that are equal without conversion are the same. -/
theorem sameValue_of_strictEquals {a b : Value} (h : strictEquals a b = true) :
  sameValue a b = true
  := by
  cases a <;> cases b <;> simp_all [sameValue, strictEquals]

/-! ### Equality up to conversion -/

/-- The two values that are compared in place of two others, after one conversion: a truth value
becomes a number, and an array or an object next to a primitive value becomes a text.  None when the
two are compared as they are. -/
def conversion? (a b : Value) : Option (Value × Value) :=
  if a.isNullish || b.isNullish then none
  else
    match a, b with
    | .number _, .string _ | .string _, .number _ => none
    | .bool _, _ => some (.number a.toNumber, b)
    | _, .bool _ => some (a, .number b.toNumber)
    | _, _ =>
      if a.isPrimitive == b.isPrimitive then none else some (a.toPrimitive, b.toPrimitive)

/-- Equality of two values that are compared as they are. -/
def settledEquals (a b : Value) : Bool :=
  if a.isNullish || b.isNullish then a.isNullish && b.isNullish else primitiveEquals a b

/-- `Compares a b n r` says that the comparison of `a` and `b` gives `r` after `n` conversions. -/
inductive Compares : Value → Value → ℕ → Bool → Prop where
  | settled {a b : Value} (h : conversion? a b = none) : Compares a b 0 (settledEquals a b)
  | convert {a b c d : Value} {n : ℕ} {r : Bool} (h : conversion? a b = some (c, d))
      (hcd : Compares c d n r) : Compares a b (n + 1) r

/-- A comparison gives one result. -/
theorem Compares.unique {a b : Value} {n k : ℕ} {r s : Bool} (h : Compares a b n r)
    (h' : Compares a b k s) :
  n = k ∧ r = s
  := by
  induction h generalizing k s with
  | settled hnone =>
      cases h' with
      | settled => exact ⟨rfl, rfl⟩
      | convert hsome => simp [hnone] at hsome
  | convert hsome _ ih =>
      cases h' with
      | settled hnone => simp [hnone] at hsome
      | convert hsome' hcd =>
          rw [hsome, Option.some.injEq, Prod.mk.injEq] at hsome'
          obtain ⟨rfl, rfl⟩ := hsome'
          obtain ⟨rfl, rfl⟩ := ih hcd
          exact ⟨rfl, rfl⟩

/-- Whether a value can still be converted. -/
def pending : Value → ℕ
  | .bool _ | .array _ | .object _ => 1
  | _ => 0

theorem pending_le (a : Value) :
  a.pending ≤ 1
  := by
  cases a <;> simp [pending]

/-- A conversion leaves less to be converted. -/
theorem pending_lt_of_conversion? {a b c d : Value} (h : conversion? a b = some (c, d)) :
  c.pending + d.pending < a.pending + b.pending
  := by
  cases a <;> cases b <;>
    simp [conversion?, isNullish, isPrimitive, toPrimitive] at h <;>
    obtain ⟨rfl, rfl⟩ := h <;> simp [pending]

/-- A conversion does not change whether two values are equal. -/
theorem looseEquals_of_conversion? {a b c d : Value} (h : conversion? a b = some (c, d)) :
  looseEquals a b = looseEquals c d
  := by
  cases a <;> cases b <;>
    simp [conversion?, isNullish, isPrimitive, toPrimitive] at h <;>
    obtain ⟨rfl, rfl⟩ := h <;> try rfl
  case bool.bool p q => cases p <;> cases q <;> rfl

theorem looseEquals_of_settled {a b : Value} (h : conversion? a b = none) :
  looseEquals a b = settledEquals a b
  := by
  cases a <;> cases b <;>
    simp [conversion?, isNullish, isPrimitive] at h <;> rfl

/-- The comparison of two values ends: after no more conversions than they have pending. -/
theorem exists_compares {n : ℕ} {a b : Value} (h : a.pending + b.pending ≤ n) :
  ∃ k ≤ n, Compares a b k (looseEquals a b)
  := by
  induction n generalizing a b with
  | zero =>
      cases hconversion : conversion? a b with
      | none =>
          rw [looseEquals_of_settled hconversion]
          exact ⟨0, le_rfl, .settled hconversion⟩
      | some p =>
          have hlt := pending_lt_of_conversion? hconversion
          omega
  | succ n ih =>
      cases hconversion : conversion? a b with
      | none =>
          rw [looseEquals_of_settled hconversion]
          exact ⟨0, Nat.zero_le _, .settled hconversion⟩
      | some p =>
          have hlt := pending_lt_of_conversion? hconversion
          obtain ⟨k, hk, hcompares⟩ := ih (a := p.1) (b := p.2) (by omega)
          rw [looseEquals_of_conversion? hconversion]
          exact ⟨k + 1, by omega, .convert hconversion hcompares⟩

theorem primitiveEquals_comm (a b : Value) :
  primitiveEquals a b = primitiveEquals b a
  := by
  -- A text is compared with a number as a number, whichever of them comes first.
  cases a <;> cases b <;> simp only [primitiveEquals]
  case number.string => exact Number.beq_comm _ _
  case string.number => exact Number.beq_comm _ _
  all_goals exact strictEquals_comm _ _

/-- Equality up to conversion is symmetric. -/
theorem looseEquals_comm (a b : Value) :
  looseEquals a b = looseEquals b a
  := by
  -- Without truth values only the kinds of the two values decide how they are compared.
  have hkinds (a b : Value) :
      (if a.isPrimitive == b.isPrimitive then a.primitiveEquals b
        else a.toPrimitive.primitiveEquals b.toPrimitive)
      = if b.isPrimitive == a.isPrimitive then b.primitiveEquals a
        else b.toPrimitive.primitiveEquals a.toPrimitive := by
    rw [Bool.beq_comm, primitiveEquals_comm, primitiveEquals_comm a.toPrimitive]
  unfold looseEquals
  rw [Bool.or_comm, Bool.and_comm]
  congr 1
  cases a with
  | bool p =>
      cases b with
      | bool q => exact Bool.beq_comm
      | _ => exact hkinds _ _
  | _ => cases b <;> exact hkinds _ _

theorem looseEquals_of_strictEquals {a b : Value} (h : strictEquals a b = true) :
  looseEquals a b = true
  := by
  cases a <;> cases b <;> first | exact h | contradiction

/-- The laws of comparison: a comparison up to conversion ends after two conversions at most, and is
symmetric; values that are equal without conversion are equal up to conversion, and the same;
equality without conversion and sameness are symmetric; and the order turns around with the
values. -/
theorem comparison_laws (a b : Value) :
  (∃ n ≤ 2, Compares a b n (looseEquals a b))
    ∧ looseEquals a b = looseEquals b a
    ∧ (strictEquals a b = true → looseEquals a b = true ∧ sameValue a b = true)
    ∧ strictEquals a b = strictEquals b a
    ∧ sameValue a b = sameValue b a
    ∧ compare b a = (compare a b).map Ordering.swap
  := by
  have hpending : a.pending + b.pending ≤ 2 := Nat.add_le_add (pending_le a) (pending_le b)
  refine ⟨exists_compares hpending, looseEquals_comm a b, ?_, strictEquals_comm a b,
    sameValue_comm a b, compare_swap a b⟩
  intro h
  exact ⟨looseEquals_of_strictEquals h, sameValue_of_strictEquals h⟩

/-- The two zeros have different signs and are equal without conversion, so they are equal up to
conversion and the same. -/
theorem comparison_laws_zero :
  strictEquals (.number (Number.zero false)) (.number (Number.zero true)) = true
    ∧ looseEquals (.number (Number.zero false)) (.number (Number.zero true)) = true
    ∧ sameValue (.number (Number.zero false)) (.number (Number.zero true)) = true
  := by
  have hzero : strictEquals (.number (Number.zero false)) (.number (Number.zero true)) = true := by
    decide
  use hzero
  apply (comparison_laws _ _).2.2.1 hzero

/-- A truth value and a nested array: both are converted, one after the other. -/
example :
    Compares (.bool true) (.array [.array [.number 1]]) 2
      ((Value.number 1).primitiveEquals (.string (Value.array [.array [.number 1]]).text)) :=
  .convert rfl (.convert rfl (.settled rfl))

end Value

end Prune
