import Prune.Json.Basic
import Prune.Number.Decimal
import Prune.Text.Units

/-!
# Reading JSON

Readers of JSON texts. A reader takes what it reads off the front of a text, or stops at the first
fault it meets: the text is malformed (`Fault.malformed`), or it is JSON of another shape than
expected (`Fault.mismatch`). Arrays and objects may be nested up to `Json.maxDepth` deep, numbers
that exceed the doubles are malformed, and so are halves of surrogate pairs.

`Json.parse` reads a text as a whole. `Reader.skip` passes over a value that nobody asked for and
is content with its outer form.
-/

namespace Prune.Json

/-- What can be wrong with a JSON text. -/
inductive Fault where
  /-- The text is not JSON. -/
  | malformed
  /-- The text is JSON of another shape than expected. -/
  | mismatch
deriving DecidableEq, Repr, Inhabited

/-- A reader of values of type `α` at the front of a text. -/
abbrev Reader (α : Type) := StateT (List Char) (Except Fault) α

namespace Reader

/-- The depth from which arrays and objects are refused. -/
def maxDepth : Nat := 128

/-- A reader that meets a fault. -/
def fail {α : Type} (fault : Fault) : Reader α := fun _ => .error fault

/-- The blanks of JSON. -/
def isBlank (c : Char) : Bool :=
  c == ' ' || c == '\n' || c == '\t' || c == '\r'

/-- Passes over blanks, and shows the next character without taking it. -/
def peek : Reader (Option Char) := fun cs =>
  let cs := cs.dropWhile isBlank
  .ok (cs.head?, cs)

/-- Takes one character. -/
def advance : Reader Unit := fun cs => .ok ((), cs.tail)

/-- Takes the letters of a word. -/
def word (letters : List Char) : Reader Unit := fun cs =>
  if letters.isPrefixOf cs then .ok ((), cs.drop letters.length) else .error .malformed

/-- The value of four hexadecimal digits, and what follows them. -/
def hexQuad? : List Char → Option (Nat × List Char)
  | a :: b :: c :: d :: rest => do
    let a ← Number.digitValue? 16 a
    let b ← Number.digitValue? 16 b
    let c ← Number.digitValue? 16 c
    let d ← Number.digitValue? 16 d
    return (((a * 16 + b) * 16 + c) * 16 + d, rest)
  | _ => none

/-- The character of an escape sequence of one letter. -/
def escapeLetter? (c : Char) : Option Char :=
  match c with
  | '"' => some '"'
  | '\\' => some '\\'
  | '/' => some '/'
  | 'b' => some (Char.ofNat 8)
  | 'f' => some (Char.ofNat 12)
  | 'n' => some '\n'
  | 'r' => some '\r'
  | 't' => some '\t'
  | _ => none

/-- The text up to the closing quote, `read` being the characters so far, last first. With
`lenient` set the surrogates need not come in pairs. -/
def stringBody (lenient : Bool) : Nat → List Char → List Char → Except Fault (String × List Char)
  | 0, _, _ => .error .malformed
  | fuel + 1, read, cs =>
    match cs with
    | [] => .error .malformed
    | '"' :: rest => .ok (String.ofList read.reverse, rest)
    | '\\' :: 'u' :: rest =>
      match hexQuad? rest with
      | none => .error .malformed
      | some (high, rest) =>
        if lenient then stringBody lenient fuel read rest
        else if 0xDC00 ≤ high && high < 0xE000 then .error .malformed
        else if 0xD800 ≤ high && high < 0xDC00 then
          match rest with
          | '\\' :: 'u' :: rest =>
            match hexQuad? rest with
            | none => .error .malformed
            | some (low, rest) =>
              if 0xDC00 ≤ low && low < 0xE000 then
                let c := Char.ofNat (0x10000 + (high - 0xD800) * 0x400 + (low - 0xDC00))
                stringBody lenient fuel (c :: read) rest
              else .error .malformed
          | _ => .error .malformed
        else stringBody lenient fuel (Char.ofNat high :: read) rest
    | '\\' :: letter :: rest =>
      match escapeLetter? letter with
      | some c => stringBody lenient fuel (c :: read) rest
      | none => .error .malformed
    | c :: rest =>
      if c == '\\' || c.toNat < 0x20 then .error .malformed
      else stringBody lenient fuel (c :: read) rest

/-- A text in quotes, of which the opening one is next. -/
def quoted (lenient : Bool) : Reader String := fun cs =>
  stringBody lenient cs.length [] cs.tail

/-- The digits of a number that still fit a 64-bit significand, their number, and what follows
them. -/
def takeSignificand (significand taken : Nat) : List Char → Nat × Nat × List Char
  | [] => (significand, taken, [])
  | c :: cs =>
    match Number.digitValue? 10 c with
    | none => (significand, taken, c :: cs)
    | some d =>
      let next := significand * 10 + d
      if next < Number.twoTo 64 then takeSignificand next (taken + 1) cs
      else (significand, taken, c :: cs)

/-- The double `± significand · 10 ^ exponent` as it is read. -/
def scaledNumber (negative : Bool) (significand : Nat) (exponent : Int) :
    Except Fault Json.Number :=
  match Number.scaled? significand 16 exponent (UInt64.ofNat significand).toFloat with
  | some x => .ok (.double (if negative then Number.negate x else x))
  | none => .error .malformed

/-- The exponent that ends a number, the mark being next. -/
def exponentTail (negative : Bool) (significand : Nat) (exponent : Int) (cs : List Char) :
    Except Fault (Json.Number × List Char) :=
  let (down, cs) :=
    match cs.tail with
    | '+' :: r => (false, r)
    | '-' :: r => (true, r)
    | r => (false, r)
  let (digits, rest) := Number.spanDigits cs
  if digits.isEmpty then .error .malformed
  else
    let e : Int := Number.ofDigits 10 digits
    if (Number.twoTo 31 : Int) ≤ e then
      if significand != 0 && !down then .error .malformed
      else .ok (.double (Number.zero negative), rest)
    else
      (scaledNumber negative significand (if down then exponent - e else exponent + e)).map
        (·, rest)

/-- The end of a number whose significand is known. -/
def afterDigits (negative : Bool) (significand : Nat) (exponent : Int) (cs : List Char) :
    Except Fault (Json.Number × List Char) :=
  match cs with
  | 'e' :: _ | 'E' :: _ => exponentTail negative significand exponent cs
  | _ => (scaledNumber negative significand exponent).map (·, cs)

/-- The places of a number behind its point, the point being next. -/
def fractionTail (negative : Bool) (significand : Nat) (exponent : Int) (cs : List Char) :
    Except Fault (Json.Number × List Char) :=
  let (places, _) := Number.spanDigits cs.tail
  if places.isEmpty then .error .malformed
  else
    let (significand, taken, rest) := takeSignificand significand 0 cs.tail
    afterDigits negative significand (exponent - taken) (rest.dropWhile Char.isDigit)

/-- A number without its sign. Digits beyond the 64-bit significand only count as places. -/
def unsignedNumber (negative : Bool) (cs : List Char) :
    Except Fault (Json.Number × List Char) :=
  match cs with
  | '0' :: c :: rest =>
    if c.isDigit then .error .malformed else wholeTail 0 0 (c :: rest)
  | c :: _ =>
    if c.isDigit then
      let (significand, _, rest) := takeSignificand 0 0 cs
      let (further, rest) := Number.spanDigits rest
      wholeTail significand further.length rest
    else .error .malformed
  | [] => .error .malformed
where
  wholeTail (significand further : Nat) (rest : List Char) :
      Except Fault (Json.Number × List Char) :=
    match rest with
    | '.' :: _ => fractionTail negative significand further rest
    | 'e' :: _ | 'E' :: _ => exponentTail negative significand further rest
    | _ =>
      if further != 0 then (scaledNumber negative significand further).map (·, rest)
      else if !negative then .ok (.int significand, rest)
      else if significand == 0 || Number.twoTo 63 < significand then
        .ok (.double (Number.negate (UInt64.ofNat significand).toFloat), rest)
      else .ok (.int (-(significand : Int)), rest)

/-- A number, whose sign or first digit is next. -/
def number : Reader Json.Number := fun cs =>
  match cs with
  | '-' :: rest => unsignedNumber true rest
  | _ => unsignedNumber false cs

/-- Passes over a number without regard to its size. -/
def skipNumber : Reader Unit := fun cs =>
  let cs := match cs with | '-' :: rest => rest | _ => cs
  let (whole, rest) := Number.spanDigits cs
  if whole.isEmpty || (whole.length > 1 && whole.head? == some '0') then .error .malformed
  else
    let fraction : Except Fault (List Char) :=
      match rest with
      | '.' :: r =>
        let (places, r) := Number.spanDigits r
        if places.isEmpty then .error .malformed else .ok r
      | _ => .ok rest
    match fraction with
    | .error e => .error e
    | .ok rest =>
      match rest with
      | c :: r =>
        if c == 'e' || c == 'E' then
          let r := match r with | '+' :: r => r | '-' :: r => r | _ => r
          let (digits, r) := Number.spanDigits r
          if digits.isEmpty then .error .malformed else .ok ((), r)
        else .ok ((), rest)
      | [] => .ok ((), [])

/-- The items of an array behind its opening bracket, `items` being those so far, last first. -/
def items {α : Type} (item : Reader α) : Nat → List α → Reader (List α)
  | 0, _ => fail .malformed
  | fuel + 1, read => do
    match ← peek with
    | some ']' => advance; return read.reverse
    | some ',' =>
      if read.isEmpty then fail .malformed
      else
        advance
        match ← peek with
        | some ']' => fail .malformed
        | _ => items item fuel ((← item) :: read)
    | some _ => if read.isEmpty then items item fuel ((← item) :: read) else fail .malformed
    | none => fail .malformed

/-- The name of the next member of an object, or none at its end. -/
def nextName (first : Bool) : Reader (Option String) := do
  match ← peek with
  | some '"' => if first then return some (← quoted false) else fail .malformed
  | some ',' =>
    if first then fail .malformed
    else
      advance
      match ← peek with
      | some '"' => return some (← quoted false)
      | _ => fail .malformed
  | some c => if c.toNat == 0x7D then advance; return none else fail .malformed
  | none => fail .malformed

/-- The colon between a name and its value. -/
def colon : Reader Unit := do
  match ← peek with
  | some ':' => advance
  | _ => fail .malformed

/-- The members of an object behind its opening brace, each handled by `member`. -/
def members {σ : Type} (member : σ → String → Reader σ) : Nat → Bool → σ → Reader σ
  | 0, _, _ => fail .malformed
  | fuel + 1, first, s => do
    match ← nextName first with
    | none => return s
    | some name => members member fuel false (← member s name)

/-- The number of characters that are left, which bounds every repetition. -/
def remaining : Reader Nat := fun cs => .ok (cs.length + 1, cs)

/-- The opening brace of an object. -/
def isOpenBrace (c : Char) : Bool := c.toNat == 0x7B

/-- A value of any shape, with arrays and objects nested less than `depth` deep. -/
def value : Nat → Reader Json
  | 0 => fail .malformed
  | depth + 1 => do
    match ← peek with
    | none => fail .malformed
    | some 'n' => word ['n', 'u', 'l', 'l']; return .null
    | some 't' => word ['t', 'r', 'u', 'e']; return .bool true
    | some 'f' => word ['f', 'a', 'l', 's', 'e']; return .bool false
    | some '"' => return .string (← quoted false)
    | some '[' =>
      if depth == 0 then fail .malformed
      else
        advance
        return .array (← items (value depth) (← remaining) [])
    | some c =>
      if isOpenBrace c then
        if depth == 0 then fail .malformed
        else
          advance
          let member (table : Table Json) (name : String) : Reader (Table Json) := do
            colon
            return table.put name (← value depth)
          return .object (← members member (← remaining) true [])
      else if c == '-' || c.isDigit then return .number (← number)
      else fail .malformed

/-- Passes over a value of any shape and depth. -/
def skip : Nat → Reader Unit
  | 0 => fail .malformed
  | fuel + 1 => do
    match ← peek with
    | none => fail .malformed
    | some 'n' => word ['n', 'u', 'l', 'l']
    | some 't' => word ['t', 'r', 'u', 'e']
    | some 'f' => word ['f', 'a', 'l', 's', 'e']
    | some '"' => let _ ← quoted true
    | some '[' => advance; let _ ← items (skip fuel) (← remaining) []
    | some c =>
      if isOpenBrace c then
        advance
        let member (_ : Unit) (_ : String) : Reader Unit := do
          colon
          skip fuel
        members member (← remaining) true ()
      else if c == '-' || c.isDigit then skipNumber
      else fail .malformed

/-- Meets the fault of a value of the wrong shape: it is malformed when already its first word,
number or text is. -/
def mismatch {α : Type} : Reader α := do
  match ← peek with
  | none => fail .malformed
  | some 'n' => word ['n', 'u', 'l', 'l']; fail .mismatch
  | some 't' => word ['t', 'r', 'u', 'e']; fail .mismatch
  | some 'f' => word ['f', 'a', 'l', 's', 'e']; fail .mismatch
  | some '"' => let _ ← quoted false; fail .mismatch
  | some '[' => fail .mismatch
  | some c =>
    if isOpenBrace c then fail .mismatch
    else if c == '-' || c.isDigit then let _ ← number; fail .mismatch
    else fail .malformed

/-- A text. -/
def string : Reader String := do
  match ← peek with
  | some '"' => quoted false
  | _ => mismatch

/-- A truth value. -/
def bool : Reader Bool := do
  match ← peek with
  | some 't' => word ['t', 'r', 'u', 'e']; return true
  | some 'f' => word ['f', 'a', 'l', 's', 'e']; return false
  | _ => mismatch

/-- An array of which each item is read by `item`. -/
def array {α : Type} (item : Reader α) : Reader (List α) := do
  match ← peek with
  | some '[' => advance; items item (← remaining) []
  | _ => mismatch

/-- An object of which each value is read by `item`, gathered by `put`. -/
def object {α : Type} (put : Table α → String → α → Table α) (item : Reader α) :
    Reader (Table α) := do
  match ← peek with
  | some c =>
    if isOpenBrace c then
      advance
      let member (table : Table α) (name : String) : Reader (Table α) := do
        colon
        return put table name (← item)
      members member (← remaining) true []
    else mismatch
  | none => mismatch

/-- What a reader makes of a text as a whole. -/
def run {α : Type} (reader : Reader α) (s : String) : Except Fault α :=
  match reader s.toList with
  | .error fault => .error fault
  | .ok (a, rest) => if (rest.dropWhile isBlank).isEmpty then .ok a else .error .malformed

end Reader

/-- The value that a text denotes. -/
def parse (s : String) : Except Fault Json :=
  (Reader.value Reader.maxDepth).run s

end Prune.Json
