import Prune.Number.Binary

/-!
# The shortest decimal of a double

`shortest` gives the decimal with the fewest digits among those that are read back as a given
double, and of these the one nearest to it. The decimals read back as `m · 2 ^ q` fill an interval
around it; for each number of digits in turn the two decimals next to `m · 2 ^ q` are tried.
`positional` writes a decimal without an exponent, and `text` is the text of any double.
-/

namespace Prune.Number

/-- The decimal `digits · 10 ^ exponent`. -/
structure Decimal where
  digits : Nat
  exponent : Int
deriving DecidableEq, Repr

/-- Whether `c · 10 ^ e ≤ x · 2 ^ p`. -/
def decimalLe (c : Nat) (e : Int) (x : Nat) (p : Int) : Bool :=
  c * tenTo e.toNat * twoTo (-p).toNat ≤ x * twoTo p.toNat * tenTo (-e).toNat

/-- Whether `x · 2 ^ p ≤ c · 10 ^ e`. -/
def binaryLe (x : Nat) (p : Int) (c : Nat) (e : Int) : Bool :=
  x * twoTo p.toNat * tenTo (-e).toNat ≤ c * tenTo e.toNat * twoTo (-p).toNat

/-- The greatest `k` with `10 ^ k ≤ m · 2 ^ q`, for `m` not zero. -/
def decimalMagnitude (m : Nat) (q : Int) : Int :=
  let guess := Int.fdiv ((Nat.log2 m + q) * 30103) 100000
  if decimalLe 1 (guess + 1) m q then guess + 1
  else if decimalLe 1 guess m q then guess
  else guess - 1

/-- The interval of the numbers that are read as `m · 2 ^ q`, in quarters of `2 ^ q`: its lower and
its upper end. The ends belong to it when `m` is even. -/
def readingInterval (m : Nat) (q : Int) : Nat × Nat :=
  (if m == twoTo 52 && -1074 < q then 4 * m - 1 else 4 * m - 2, 4 * m + 2)

/-- Whether the decimal `c · 10 ^ e` is read as `m · 2 ^ q`. -/
def readsAs (m : Nat) (q : Int) (c : Nat) (e : Int) : Bool :=
  let (lo, hi) := readingInterval m q
  if m % 2 == 0 then binaryLe lo (q - 2) c e && decimalLe c e hi (q - 2)
  else !decimalLe c e lo (q - 2) && !binaryLe hi (q - 2) c e

/-- The decimal with `n` digits that is read as `m · 2 ^ q`, of two the nearer. -/
def withDigits (m : Nat) (q k : Int) (n : Nat) : Option Decimal :=
  let e := k - n + 1
  let below :=
    (m * twoTo q.toNat * tenTo (-e).toNat) / (twoTo (-q).toNat * tenTo e.toNat)
  match readsAs m q below e, readsAs m q (below + 1) e with
  | true, true =>
    some ⟨if binaryLe (2 * m) q (2 * below + 1) e && !decimalLe (2 * below + 1) e (2 * m) q
      then below else below + 1, e⟩
  | true, false => some ⟨below, e⟩
  | false, true => some ⟨below + 1, e⟩
  | false, false => none

/-- The shortest decimal that is read as `m · 2 ^ q`, for `m` not zero. -/
def shortest (m : Nat) (q : Int) : Decimal :=
  let k := decimalMagnitude m q
  ((List.range 17).findSome? fun n => withDigits m q k (n + 1)).getD
    ⟨m * twoTo q.toNat, 0⟩

/-- A decimal written without an exponent, and with a digit on both sides of its point if it has
one. -/
def Decimal.positional (d : Decimal) : String :=
  let digits := Nat.toDigits 10 d.digits
  match d.exponent with
  | .ofNat e => String.ofList (digits ++ List.replicate e '0')
  | .negSucc e =>
    let places := e + 1
    let padded := List.replicate (places + 1 - digits.length) '0' ++ digits
    let whole := padded.take (padded.length - places)
    let fraction := (padded.drop (padded.length - places)).reverse.dropWhile (· == '0')
    if fraction.isEmpty then String.ofList whole
    else String.ofList (whole ++ '.' :: fraction.reverse)

/-- The text of a double. An integer below `10 ^ 21` is written as the nearest 64-bit integer, any
other number by its shortest decimal. -/
def text (x : Float) : String :=
  match Binary.ofFloat? x with
  | none => if isNaN x then "NaN" else if isNegative x then "-Infinity" else "Infinity"
  | some b =>
    if b.isWhole && b.truncate.natAbs < tenTo 21 then toString (clampInt64 b.truncate)
    else
      let magnitude := (shortest b.mantissa b.exponent).positional
      if b.negative then "-" ++ magnitude else magnitude

end Prune.Number
