import Prune.Json.Basic
import Prune.Number.Shortest

/-!
# Writing JSON

The text of a JSON value on one line (`Json.compact`), and with each item and each member on a line
of its own (`Json.pretty`). A double is written by its shortest decimal (`Json.doubleText`).
-/

namespace Prune.Json

/-- How many places a double may have in front of its point, and how many zeros right behind it,
before it is written with an exponent. -/
structure DoubleFormat where
  wholePlaces : Int
  leadingZeros : Int

/-- Doubles are written without an exponent from `0.00001` up to sixteen places. -/
def doubleFormat : DoubleFormat := ⟨16, 5⟩

/-- The text of a decimal with a point or an exponent in it. -/
def decimalText (format : DoubleFormat) (d : Number.Decimal) : String :=
  let digits := Nat.toDigits 10 d.digits
  let point := digits.length + d.exponent
  if 0 ≤ d.exponent && point ≤ format.wholePlaces then d.positional ++ ".0"
  else if -format.leadingZeros < point && point ≤ format.wholePlaces then d.positional
  else
    let fraction := if digits.length == 1 then [] else '.' :: digits.tail
    String.ofList (digits.take 1 ++ fraction) ++ "e" ++ toString (point - 1)

/-- The text of a double. -/
def doubleText (x : Float) : String :=
  match Number.Binary.ofFloat? x with
  | none => "null"
  | some b =>
    let magnitude :=
      if b.mantissa == 0 then "0.0"
      else decimalText doubleFormat (Number.shortest b.mantissa b.exponent)
    if b.negative then "-" ++ magnitude else magnitude

/-- The text of a number. -/
def Number.text : Json.Number → String
  | .int n => toString n
  | .double x => doubleText x

/-- How a character stands in a quoted text. -/
def escaped (c : Char) : List Char :=
  match c with
  | '"' => ['\\', '"']
  | '\\' => ['\\', '\\']
  | '\n' => ['\\', 'n']
  | '\r' => ['\\', 'r']
  | '\t' => ['\\', 't']
  | c =>
    let n := c.toNat
    if n == 8 then ['\\', 'b']
    else if n == 12 then ['\\', 'f']
    else if n < 0x20 then
      let digits := Nat.toDigits 16 n
      ['\\', 'u'] ++ List.replicate (4 - digits.length) '0' ++ digits
    else [c]

/-- A text in quotes. -/
def quoted (s : String) : String :=
  String.ofList ('"' :: s.toList.flatMap escaped ++ ['"'])

mutual

/-- The text of a value on one line. -/
def compact : Json → String
  | .null => "null"
  | .bool b => if b then "true" else "false"
  | .number n => n.text
  | .string s => quoted s
  | .array items => "[" ++ String.intercalate "," (compactItems items) ++ "]"
  | .object members => "\x7b" ++ String.intercalate "," (compactMembers members) ++ "\x7d"

/-- The texts of the items of an array. -/
def compactItems : List Json → List String
  | [] => []
  | item :: items => compact item :: compactItems items

/-- The texts of the members of an object. -/
def compactMembers : List (String × Json) → List String
  | [] => []
  | (name, member) :: members => (quoted name ++ ":" ++ compact member) :: compactMembers members

end

/-- Lines between two brackets, each indented one step deeper than the brackets are. -/
def block (depth : Nat) (opening closing : String) : List String → String
  | [] => opening ++ closing
  | lines =>
    let indent (steps : Nat) := "\n" ++ String.ofList (List.replicate (2 * steps) ' ')
    opening ++ String.intercalate "," (lines.map fun line => indent (depth + 1) ++ line)
      ++ indent depth ++ closing

mutual

/-- The text of a value inside brackets that are nested `depth` deep. -/
def prettyAt (depth : Nat) : Json → String
  | .array items => block depth "[" "]" (prettyItems (depth + 1) items)
  | .object members => block depth "\x7b" "\x7d" (prettyMembers (depth + 1) members)
  | .null => compact .null
  | .bool b => compact (.bool b)
  | .number n => compact (.number n)
  | .string s => compact (.string s)

/-- The texts of the items of an array. -/
def prettyItems (depth : Nat) : List Json → List String
  | [] => []
  | item :: items => prettyAt depth item :: prettyItems depth items

/-- The texts of the members of an object. -/
def prettyMembers (depth : Nat) : List (String × Json) → List String
  | [] => []
  | (name, member) :: members =>
    (quoted name ++ ": " ++ prettyAt depth member) :: prettyMembers depth members

end

/-- The text of a value with each item and each member on a line of its own. -/
def pretty (j : Json) : String :=
  prettyAt 0 j

end Prune.Json
