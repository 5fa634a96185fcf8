import Prune.Text.Case
import Prune.Text.Units
import Prune.Value.Compare

/-!
# Properties, methods and functions

What a value answers when one of its properties is read (`property`) or one of its methods called
(`callMethod`), the functions that conditions can call (`callFunction`), and the causes for which a
condition cannot be evaluated (`EvalError`).
-/

namespace Prune.Condition

/-- A cause for which an expression has no value. -/
inductive EvalError where
  | emptyText
  | unpairedSurrogate
  | otherLiteral
  | otherExpression
  | otherOperator (text : String)
  | badTemplate
  | spread
  | privateName
  | undefinedName (name : String)
  /-- A property of an absent value. -/
  | absent (value key : String)
  /-- The operator `in` on a value without keys. -/
  | noKeys (type : String)
  | notFunction (name : String)
  | otherCall
  | calledCall
  | otherCallee
deriving DecidableEq, Repr, Inhabited

/-- The wording of a cause. -/
def EvalError.message : EvalError → String
  | .emptyText => "empty expression"
  | .unpairedSurrogate => "string literal is not valid UTF-8"
  | .otherLiteral => "unsupported literal"
  | .otherExpression => "unsupported expression"
  | .otherOperator text => "unsupported operator \"" ++ text ++ "\""
  | .badTemplate => "invalid template literal"
  | .spread => "spread arguments are not supported"
  | .privateName => "private names are not supported"
  | .undefinedName name => name ++ " is not defined"
  | .absent value key => "cannot read properties of " ++ value ++ " (reading '" ++ key ++ "')"
  | .noKeys type => "cannot use 'in' operator on " ++ type
  | .notFunction name => name ++ " is not a function"
  | .otherCall => "unsupported call"
  | .calledCall => "calling a call result is not supported"
  | .otherCallee => "unsupported call target"

/-- The number of an item that a text denotes: digits, with a plus sign in front or without, for a
number of 64 bits. -/
def itemNumber? (key : String) : Option Nat :=
  let digits :=
    match key.toList with
    | '+' :: cs => cs
    | cs => cs
  if digits.isEmpty || !digits.all Char.isDigit then none
  else
    let n := Number.ofDigits 10 digits
    if n < Number.twoTo 64 then some n else none

/-- The double that an integer of at most 64 bits is. -/
def ofInt (n : Int) : Float :=
  Json.Number.toFloat (.int n)

/-- The property of a value with a given key. -/
def property (object : Value) (key : String) : Except EvalError Value :=
  match object with
  | .undefined | .null => .error (.absent object.text key)
  | .string s =>
    let units := Text.units s.toList
    if key == "length" then .ok (.number (ofInt units.length))
    else
      match (itemNumber? key).bind fun i => units[i]? with
      | some unit => .ok (.string (Text.unitText unit))
      | none => .ok .undefined
  | .array items =>
    if key == "length" then .ok (.number (ofInt items.length))
    else .ok (((itemNumber? key).bind fun i => items[i]?).getD .undefined)
  | .object members => .ok ((Table.get? members key).getD .undefined)
  | .bool _ | .number _ => .ok .undefined

/-- Where a text occurs first in another: the characters before it. -/
def before? (needle : List Char) : List Char → Option (List Char)
  | [] => if needle.isEmpty then some [] else none
  | c :: cs =>
    if needle.isPrefixOf (c :: cs) then some [] else (before? needle cs).map (c :: ·)

/-- Where an item that passes a test occurs first, counted from zero; minus one if it does not. -/
def position (test : Value → Bool) (items : List Value) : Int :=
  match items.findIdx? test with
  | some i => i
  | none => -1

/-- The text of the first argument. -/
def firstText (arguments : List Value) : String :=
  (arguments.head?.getD .undefined).text

/-- Calls a method of a text. -/
def callTextMethod (s : String) (arguments : List Value) : String → Option Value
  | "startsWith" => some (.bool ((firstText arguments).toList.isPrefixOf s.toList))
  | "endsWith" => some (.bool ((firstText arguments).toList.isSuffixOf s.toList))
  | "includes" => some (.bool (before? (firstText arguments).toList s.toList).isSome)
  | "indexOf" =>
    match before? (firstText arguments).toList s.toList with
    | some cs => some (.number (ofInt (Text.unitCount cs)))
    | none => some (.number (ofInt (-1)))
  | "toLowerCase" => some (.string (Text.lower s))
  | "toUpperCase" => some (.string (Text.upper s))
  | "trim" => some (.string (Text.trim s))
  | _ => none

/-- Calls a method of an array. -/
def callArrayMethod (items arguments : List Value) : String → Option Value
  | "includes" => some (.bool (items.any (·.sameValue (arguments.head?.getD .undefined))))
  | "indexOf" =>
    some (.number (ofInt (position (·.strictEquals (arguments.head?.getD .undefined)) items)))
  | "join" =>
    match arguments.head? with
    | none | some .undefined => some (.string (Value.join items ","))
    | some separator => some (.string (Value.join items separator.text))
  | _ => none

/-- Calls a method of a value. -/
def callMethod (receiver : Value) (method : String) (arguments : List Value) :
    Except EvalError Value :=
  if receiver.isNullish then .error (.absent receiver.text method)
  else
    let answer :=
      match receiver with
      | .string s => callTextMethod s arguments method
      | .array items => callArrayMethod items arguments method
      | _ => none
    match answer with
    | some v => .ok v
    | none =>
      if method == "toString" then .ok (.string receiver.text)
      else .error (.notFunction (receiver.typeName ++ "." ++ method))

/-- Calls one of the functions that convert values. -/
def callFunction (name : String) (arguments : List Value) : Except EvalError Value :=
  let first := arguments.head?.getD .undefined
  match name with
  | "Boolean" => .ok (.bool first.truthy)
  | "Number" => .ok (.number (if arguments.isEmpty then Number.zero false else first.toNumber))
  | "String" => .ok (.string (if arguments.isEmpty then "" else first.text))
  | _ => .error (.notFunction name)

end Prune.Condition
