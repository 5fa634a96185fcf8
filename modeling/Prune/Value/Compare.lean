import Prune.Value.Basic

/-!
# Comparison of values

The four comparisons of values: equality without conversion (`Value.strictEquals`), which no two
arrays or objects satisfy; the same with `NaN` equal to itself (`Value.sameValue`); equality up to
conversion (`Value.looseEquals`); and the order of texts or else of numbers (`Value.compare`).
-/

namespace Prune.Value

/-- Equality of values of one type. Arrays and objects have no identity, so they equal nothing. -/
def strictEquals : Value → Value → Bool
  | .undefined, .undefined => true
  | .null, .null => true
  | .bool a, .bool b => a == b
  | .number x, .number y => x == y
  | .string s, .string t => s == t
  | _, _ => false

/-- Equality of values of one type for which `NaN` equals itself. -/
def sameValue : Value → Value → Bool
  | .number x, .number y => (Number.isNaN x && Number.isNaN y) || x == y
  | a, b => strictEquals a b

/-- Equality of two primitive values that are present and not truth values: a text and a number
are compared as numbers. -/
def primitiveEquals : Value → Value → Bool
  | .number x, .string s => x == Number.ofText s
  | .string s, .number y => Number.ofText s == y
  | a, b => strictEquals a b

/-- The number of a truth value, and any other value itself. -/
def withoutBool : Value → Value
  | .bool b => .number (Value.bool b).toNumber
  | v => v

/-- Equality up to conversion. The absent values equal each other and nothing else; a truth value
counts as a number; an array or an object is compared with a primitive value by its text. -/
def looseEquals (a b : Value) : Bool :=
  if a.isNullish || b.isNullish then a.isNullish && b.isNullish
  else
    match a, b with
    | .bool p, .bool q => p == q
    | _, _ =>
      let a := a.withoutBool
      let b := b.withoutBool
      if a.isPrimitive == b.isPrimitive then a.primitiveEquals b
      else a.toPrimitive.primitiveEquals b.toPrimitive

/-- The order of two numbers, none when one of them is no number. -/
def compareNumbers (x y : Float) : Option Ordering :=
  if x < y then some .lt else if x == y then some .eq else if y < x then some .gt else none

/-- The order of two texts by their code points. -/
def compareTexts (s t : String) : Ordering :=
  if s < t then .lt else if s == t then .eq else .gt

/-- The order of two values: texts are compared as such, all else as numbers. -/
def compare (a b : Value) : Option Ordering :=
  match a.toPrimitive, b.toPrimitive with
  | .string s, .string t => some (compareTexts s t)
  | a, b => compareNumbers a.toNumber b.toNumber

end Prune.Value
