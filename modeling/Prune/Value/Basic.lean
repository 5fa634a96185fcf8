import Prune.Json.Basic
import Prune.Number.Decimal

/-!
# Values of conditions

The values that conditions compute with (`Value`), their truth (`Value.truthy`), their types, and
the conversions between them: to text (`Value.text`), to numbers (`Value.toNumber`), to 32-bit
integers and to primitive values. An array converts to its items joined by commas, an object to a
fixed text.
-/

namespace Prune

/-- A value of a condition. The members of an object are sorted by their names. -/
inductive Value where
  | undefined
  | null
  | bool (b : Bool)
  | number (x : Float)
  | string (s : String)
  | array (items : List Value)
  | object (members : List (String × Value))
deriving Inhabited

namespace Value

mutual

/-- The value that a JSON value stands for. -/
def ofJson : Json → Value
  | .null => .null
  | .bool b => .bool b
  | .number n => .number n.toFloat
  | .string s => .string s
  | .array items => .array (ofItems items)
  | .object members => .object (ofMembers members)

/-- The values that the items of an array stand for. -/
def ofItems : List Json → List Value
  | [] => []
  | item :: items => ofJson item :: ofItems items

/-- The values that the members of an object stand for, sorted by their names. -/
def ofMembers : List (String × Json) → List (String × Value)
  | [] => []
  | (name, member) :: members => Table.putSorted (ofMembers members) name (ofJson member)

end

/-- Whether a value stands for the absence of one. -/
def isNullish : Value → Bool
  | .undefined | .null => true
  | _ => false

/-- Whether a value is neither an array nor an object. -/
def isPrimitive : Value → Bool
  | .array _ | .object _ => false
  | _ => true

/-- Whether a value counts as true: all do but the absent ones, `false`, zero, what is no number
and the empty text. -/
def truthy : Value → Bool
  | .undefined | .null => false
  | .bool b => b
  | .number x => !(x == 0 || Number.isNaN x)
  | .string s => !s.isEmpty
  | .array _ | .object _ => true

/-- The name of the type of a value. -/
def typeName : Value → String
  | .undefined => "undefined"
  | .null | .array _ | .object _ => "object"
  | .bool _ => "boolean"
  | .number _ => "number"
  | .string _ => "string"

mutual

/-- The text of a value. -/
def text : Value → String
  | .undefined => "undefined"
  | .null => "null"
  | .bool b => if b then "true" else "false"
  | .number x => Number.text x
  | .string s => s
  | .array items => String.intercalate "," (itemTexts items)
  | .object _ => "[object Object]"

/-- The texts of the items of an array, of which the absent ones have none. -/
def itemTexts : List Value → List String
  | [] => []
  | .undefined :: items => "" :: itemTexts items
  | .null :: items => "" :: itemTexts items
  | item :: items => text item :: itemTexts items

end

/-- The items of an array with a separator between each two. -/
def join (items : List Value) (separator : String) : String :=
  String.intercalate separator (itemTexts items)

/-- The number that a value converts to. -/
def toNumber : Value → Float
  | .undefined => Number.nan
  | .null => Number.zero false
  | .bool b => if b then 1 else Number.zero false
  | .number x => x
  | .string s => Number.ofText s
  | v => Number.ofText (text v)

/-- The 32-bit integer that a value converts to. -/
def toInt32 (v : Value) : Int32 :=
  Number.toInt32 v.toNumber

/-- The primitive value that a value converts to: arrays and objects convert to their texts. -/
def toPrimitive (v : Value) : Value :=
  if v.isPrimitive then v else .string v.text

end Value

end Prune
