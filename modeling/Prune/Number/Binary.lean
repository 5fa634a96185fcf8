/-!
# Doubles as scaled integers

A finite double is `± m · 2 ^ q` for natural `m` and integer `q` (`Binary`). On this form
truncation (`Binary.truncate`), the remainder of a division (`remainder`) and the conversion to
32-bit integers (`toInt32`) are exact integer arithmetic.
-/

namespace Prune.Number

/-- The number `± mantissa · 2 ^ exponent`. -/
structure Binary where
  negative : Bool
  mantissa : Nat
  exponent : Int
deriving DecidableEq, Repr

/-- A power of two. -/
abbrev twoTo (n : Nat) : Nat := Nat.pow 2 n

/-- A power of ten. -/
abbrev tenTo (n : Nat) : Nat := Nat.pow 10 n

/-- The bits of the exponent of a double. -/
def exponentBits (x : Float) : Nat :=
  x.toBits.toNat / twoTo 52 % 2048

/-- The bits of the fraction of a double. -/
def fractionBits (x : Float) : Nat :=
  x.toBits.toNat % twoTo 52

/-- Whether the sign bit of a double is set. -/
def isNegative (x : Float) : Bool :=
  twoTo 63 ≤ x.toBits.toNat

/-- Whether a double is no number. -/
def isNaN (x : Float) : Bool :=
  exponentBits x == 2047 && fractionBits x != 0

/-- Whether a double is one of the two infinities. -/
def isInfinite (x : Float) : Bool :=
  exponentBits x == 2047 && fractionBits x == 0

/-- The double that is no number. -/
def nan : Float := Float.ofBits 0x7FF8000000000000

/-- The infinity of the given sign. -/
def infinity (negative : Bool) : Float :=
  Float.ofBits (if negative then 0xFFF0000000000000 else 0x7FF0000000000000)

/-- The zero of the given sign. -/
def zero (negative : Bool) : Float :=
  Float.ofBits (if negative then 0x8000000000000000 else 0)

/-- A finite double as a scaled integer. -/
def Binary.ofFloat? (x : Float) : Option Binary :=
  if exponentBits x == 2047 then none
  else if exponentBits x == 0 then some ⟨isNegative x, fractionBits x, -1074⟩
  else some ⟨isNegative x, fractionBits x + twoTo 52, (exponentBits x : Int) - 1075⟩

/-- The double that a scaled integer denotes, when its mantissa is below `2 ^ 53` and its exponent
is in the range of doubles: the mantissa is shifted up as far as the exponent allows. -/
def Binary.toFloat (b : Binary) : Float :=
  if b.mantissa == 0 then zero b.negative
  else
    let shift := min (52 - Nat.log2 b.mantissa) (b.exponent + 1074).toNat
    let mantissa := b.mantissa * twoTo shift
    let exponent := b.exponent - shift
    let magnitude :=
      if mantissa < twoTo 52 then mantissa
      else (exponent + 1075).toNat * twoTo 52 + (mantissa - twoTo 52)
    Float.ofBits (UInt64.ofNat (magnitude + if b.negative then twoTo 63 else 0))

/-- The integer next to zero among the two nearest to a number. -/
def Binary.truncate (b : Binary) : Int :=
  let magnitude : Nat :=
    match b.exponent with
    | .ofNat e => b.mantissa * twoTo e
    | .negSucc e => b.mantissa / twoTo (e + 1)
  if b.negative then -(magnitude : Int) else magnitude

/-- Whether a number is an integer. -/
def Binary.isWhole (b : Binary) : Bool :=
  match b.exponent with
  | .ofNat _ => true
  | .negSucc e => b.mantissa % twoTo (e + 1) == 0

/-- The nearest 64-bit integer to an integer. -/
def clampInt64 (n : Int) : Int :=
  let bound : Int := twoTo 63
  if n < -bound then -bound else if bound ≤ n then bound - 1 else n

/-- The signed 32-bit integer of a double: zero when it is not finite, otherwise its integral part,
brought to the nearest 64-bit integer and reduced modulo `2 ^ 32`. -/
def toInt32 (x : Float) : Int32 :=
  match Binary.ofFloat? x with
  | none => 0
  | some b => Int32.ofInt (clampInt64 b.truncate)

/-- The remainder of a division of doubles, with the sign of the dividend. -/
def remainder (x y : Float) : Float :=
  match Binary.ofFloat? x, Binary.ofFloat? y with
  | some a, some b =>
    if b.mantissa == 0 then nan
    else
      let e := min a.exponent b.exponent
      let m := a.mantissa * twoTo (a.exponent - e).toNat
      let n := b.mantissa * twoTo (b.exponent - e).toNat
      Binary.toFloat ⟨a.negative, m % n, e⟩
  | some _, none => if isInfinite y then x else nan
  | none, _ => nan

end Prune.Number
