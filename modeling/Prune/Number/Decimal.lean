import Prune.Number.Shortest
import Prune.Text.Blank

/-!
# Reading decimals

The grammar of decimals in texts (`Reading.decimal?`), the double nearest to a decimal
(`Decimal.toFloat`) and the number that a text denotes as a whole (`ofText`). `scaled` is the
reading of configuration files, which multiplies or divides by one power of ten and so rounds
twice.
-/

namespace Prune.Number

/-- The value of a digit of a base up to sixteen. -/
def digitValue? (base : Nat) (c : Char) : Option Nat :=
  let value :=
    if '0' ≤ c && c ≤ '9' then c.toNat - 48
    else if 'a' ≤ c && c ≤ 'f' then c.toNat - 87
    else if 'A' ≤ c && c ≤ 'F' then c.toNat - 55
    else 16
  if value < base then some value else none

/-- The number written by a list of digits of the given base. -/
def ofDigits (base : Nat) (cs : List Char) : Nat :=
  cs.foldl (fun n c => n * base + (digitValue? base c).getD 0) 0

/-- The double nearest to a decimal, ties going to the even mantissa. -/
def Decimal.toFloat (d : Decimal) : Float :=
  if d.digits == 0 then zero false
  else
    let magnitude := d.exponent + (Nat.log2 d.digits : Int) * 30103 / 100000
    if 310 < magnitude then infinity false
    else if magnitude < -330 then zero false
    else Float.ofScientific d.digits (d.exponent < 0) d.exponent.natAbs

/-- A double with the opposite sign. -/
def negate (x : Float) : Float := -x

/-- The digits at the front of a text, and what follows them. -/
def spanDigits (cs : List Char) : List Char × List Char :=
  cs.span Char.isDigit

/-- The exponent that ends a decimal: nothing at all, or a mark, an optional sign and digits. -/
def exponentPart? : List Char → Option Int
  | [] => some 0
  | mark :: cs =>
    if mark == 'e' || mark == 'E' then
      let (negative, cs) :=
        match cs with
        | '-' :: r => (true, r)
        | '+' :: r => (false, r)
        | r => (false, r)
      let (digits, rest) := spanDigits cs
      if digits.isEmpty || !rest.isEmpty then none
      else
        let n : Int := ofDigits 10 digits
        some (if negative then -n else n)
    else none

/-- The decimal that a text without a sign spells out: digits with at most one point among them,
and an optional exponent. -/
def unsigned? (cs : List Char) : Option Decimal :=
  let (whole, rest) := spanDigits cs
  let (fraction, rest) :=
    match rest with
    | '.' :: r => spanDigits r
    | r => ([], r)
  if whole.isEmpty && fraction.isEmpty then none
  else
    (exponentPart? rest).map fun e =>
      ⟨ofDigits 10 (whole ++ fraction), e - fraction.length⟩

/-- The number that a text without a sign spells out, the words for infinity and for what is no
number included. -/
def unsignedNumber? (cs : List Char) : Option Float :=
  let word := String.ofList (cs.map Char.toLower)
  if word == "inf" || word == "infinity" then some (infinity false)
  else if word == "nan" then some nan
  else (unsigned? cs).map Decimal.toFloat

/-- The number that a text denotes as a whole: nothing but blanks denotes zero, and what spells
out no number denotes none. -/
def ofText (s : String) : Float :=
  match Text.trimChars s.toList with
  | [] => zero false
  | '-' :: cs => ((unsignedNumber? cs).map negate).getD nan
  | '+' :: cs => (unsignedNumber? cs).getD nan
  | cs => (unsignedNumber? cs).getD nan

/-- The powers of ten that are doubles. -/
def powerOfTen (e : Nat) : Float :=
  Float.ofScientific 1 false e

/-- The double `significand · 10 ^ exponent`, computed by one multiplication, or by divisions of
which each but the last is by `10 ^ 308`; none when it exceeds the doubles. -/
def scaled? (significand : Nat) : Nat → Int → Float → Option Float
  | 0, _, _ => some (zero false)
  | fuel + 1, exponent, value =>
    if exponent.natAbs ≤ 308 then
      if 0 ≤ exponent then
        let product := value * powerOfTen exponent.natAbs
        if isInfinite product then none else some product
      else some (value / powerOfTen exponent.natAbs)
    else if significand == 0 then some value
    else if 0 ≤ exponent then none
    else if value.toBits == 0 then some value
    else scaled? significand fuel (exponent + 308) (value / powerOfTen 308)

end Prune.Number
