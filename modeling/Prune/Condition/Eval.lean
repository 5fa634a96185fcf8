import Prune.Condition.Expr
import Prune.Condition.Methods

/-!
# Evaluation of conditions

The value of an expression over a table of symbols (`Expr.eval`). A member or a call behind an
optional link whose object is absent ends its whole chain: `Expr.run` tells that apart from a value,
and the chain as a whole is undefined then.
-/

namespace Prune.Condition

/-- The symbols of conditions with their values, in the order in which they were given. -/
abbrev Symbols := Table Json

/-- The value of a name: that of a symbol, or one of three values that have names. -/
def lookup (symbols : Symbols) (name : String) : Except EvalError Value :=
  match Table.get? symbols name with
  | some json => .ok (Value.ofJson json)
  | none =>
    match name with
    | "undefined" => .ok .undefined
    | "NaN" => .ok (.number Number.nan)
    | "Infinity" => .ok (.number (Number.infinity false))
    | _ => .error (.undefinedName name)

/-- Applies a prefix operator to a value. -/
def UnaryOp.apply (op : UnaryOp) (v : Value) : Except EvalError Value :=
  match op with
  | .not => .ok (.bool !v.truthy)
  | .minus => .ok (.number (Number.negate v.toNumber))
  | .plus => .ok (.number v.toNumber)
  | .complement => .ok (.number (ofInt (~~~v.toInt32).toInt))
  | .typeOf => .ok (.string v.typeName)
  | .void => .ok .undefined
  | .delete => .error (.otherOperator op.text)

/-- Adds two values: as texts if one of them converts to a text, as numbers otherwise. -/
def sum (a b : Value) : Value :=
  match a.toPrimitive, b.toPrimitive with
  | .string s, w => .string (s ++ w.text)
  | v, .string t => .string (v.text ++ t)
  | v, w => .number (v.toNumber + w.toNumber)

/-- Whether a value has a key. -/
def hasKey (a b : Value) : Except EvalError Value :=
  let key := a.text
  match b with
  | .object members => .ok (.bool (Table.get? members key).isSome)
  | .array items =>
    .ok (.bool (key == "length" || (itemNumber? key).any fun i => i < items.length))
  | _ => .error (.noKeys b.typeName)

/-- Whether the order of two values is one of some. -/
def ordered (a b : Value) (orders : List Ordering) : Value :=
  .bool ((a.compare b).any fun o => orders.contains o)

/-- An operation on 32-bit integers. -/
def bitwise (f : Int32 → Int32 → Int32) (a b : Value) : Value :=
  .number (ofInt (f a.toInt32 b.toInt32).toInt)

/-- A shift of a 32-bit integer to the right without regard to its sign. -/
def shiftUnsigned (a b : Int32) : Nat :=
  a.toUInt32.toNat / Number.twoTo (b.toUInt32.toNat % 32)

/-- A shift of a 32-bit integer to the left. -/
def shiftedLeft (a b : Int32) : Int32 :=
  Int32.ofInt (a.toInt * Number.twoTo (b.toUInt32.toNat % 32))

/-- A shift of a 32-bit integer to the right, rounding down. -/
def shiftedRight (a b : Int32) : Int32 :=
  Int32.ofInt (Int.fdiv a.toInt (Number.twoTo (b.toUInt32.toNat % 32)))

/-- Applies a binary operator to two values. -/
def BinaryOp.apply (op : BinaryOp) (a b : Value) : Except EvalError Value :=
  match op with
  | .looseEq => .ok (.bool (a.looseEquals b))
  | .looseNe => .ok (.bool !(a.looseEquals b))
  | .strictEq => .ok (.bool (a.strictEquals b))
  | .strictNe => .ok (.bool !(a.strictEquals b))
  | .lt => .ok (ordered a b [.lt])
  | .le => .ok (ordered a b [.lt, .eq])
  | .gt => .ok (ordered a b [.gt])
  | .ge => .ok (ordered a b [.gt, .eq])
  | .add => .ok (sum a b)
  | .sub => .ok (.number (a.toNumber - b.toNumber))
  | .mul => .ok (.number (a.toNumber * b.toNumber))
  | .div => .ok (.number (a.toNumber / b.toNumber))
  | .mod => .ok (.number (Number.remainder a.toNumber b.toNumber))
  | .exp => .ok (.number (Float.pow a.toNumber b.toNumber))
  | .bitAnd => .ok (bitwise (· &&& ·) a b)
  | .bitOr => .ok (bitwise (· ||| ·) a b)
  | .bitXor => .ok (bitwise (· ^^^ ·) a b)
  | .shiftLeft => .ok (bitwise shiftedLeft a b)
  | .shiftRight => .ok (bitwise shiftedRight a b)
  | .shiftRightUnsigned => .ok (.number (ofInt (shiftUnsigned a.toInt32 b.toInt32)))
  | .isIn => hasKey a b
  | .and | .or | .coalesce | .instanceOf => .error (.otherOperator op.text)

/-- Whether an operator decides by its left operand alone, and then has its value. -/
def BinaryOp.stops (op : BinaryOp) (a : Value) : Bool :=
  match op with
  | .and => !a.truthy
  | .or => a.truthy
  | .coalesce => !a.isNullish
  | _ => false

/-- Whether an operator has the value of its right operand when its left one does not decide. -/
def BinaryOp.isLogical : BinaryOp → Bool
  | .and | .or | .coalesce => true
  | _ => false

/-- Whether a link to an object ends the chain. -/
def endsChain (link : Source.Link) (object : Value) : Bool :=
  link == .optional && object.isNullish

namespace Expr

/-- The name that an expression is. -/
def name? : Expr → Option String
  | .name text => some text
  | _ => none

variable (symbols : Symbols)

mutual

/-- The value of an expression, or none when an optional link ended the chain that it is. -/
def run : Expr → Except EvalError (Option Value)
  | .null => .ok (some .null)
  | .bool b => .ok (some (.bool b))
  | .number x => .ok (some (.number x))
  | .string (some s) => .ok (some (.string s))
  | .string none => .error .unpairedSurrogate
  | .otherLiteral => .error .otherLiteral
  | .name text => (lookup symbols text).map some
  | .paren e => do
    let v ← run e
    return some (v.getD .undefined)
  | .unary op e =>
    match op, e.name? with
    | .typeOf, some text =>
      let v := (lookup symbols text).toOption.getD .undefined
      .ok (some (.string v.typeName))
    | _, _ => do
      let v ← run e
      return some (← op.apply (v.getD .undefined))
  | .binary op left right => do
    let a := (← run left).getD .undefined
    if op.stops a then return some a
    else
      let b := (← run right).getD .undefined
      if op.isLogical then return some b else return some (← op.apply a b)
  | .conditional test yes no => do
    let t := (← run test).getD .undefined
    let v ← if t.truthy then run yes else run no
    return some (v.getD .undefined)
  | .sequence es => do return some (← runLast .undefined es)
  | .template parts => do return some (.string (← runParts parts))
  | .array items => do return some (.array (← runElements items))
  | .member link object key => do
    match ← run object with
    | none => return none
    | some v => if endsChain link v then return none else return some (← property v key)
  | .privateMember link object => do
    match ← run object with
    | none => return none
    | some v => if endsChain link v then return none else .error .privateName
  | .index link object key => do
    match ← run object with
    | none => return none
    | some v =>
      if endsChain link v then return none
      else
        let k := (← run key).getD .undefined
        return some (← property v k.text)
  | .call _ callee arguments => runCall (runArguments arguments) callee
  | .importCall => .error .otherCall
  | .other => .error .otherExpression

/-- The value of the last of some expressions, after the values of the others. -/
def runLast (last : Value) : List Expr → Except EvalError Value
  | [] => .ok last
  | e :: es => do
    let v ← run e
    runLast (v.getD .undefined) es

/-- The text of a template. -/
def runParts : List Part → Except EvalError String
  | [] => .ok ""
  | .piece none :: _ => .error .badTemplate
  | .piece (some s) :: parts => do return s ++ (← runParts parts)
  | .value e :: parts => do
    let v ← run e
    return (v.getD .undefined).text ++ (← runParts parts)

/-- The elements of an array, in which holes are undefined. -/
def runElements : List Item → Except EvalError (List Value)
  | [] => .ok []
  | .hole :: items => do return .undefined :: (← runElements items)
  | .spread :: _ => .error .spread
  | .value e :: items => do
    let v ← run e
    return v.getD .undefined :: (← runElements items)

/-- The arguments of a call. -/
def runArguments : List Item → Except EvalError (List Value)
  | [] => .ok []
  | .hole :: items => runArguments items
  | .spread :: _ => .error .spread
  | .value e :: items => do
    let v ← run e
    return v.getD .undefined :: (← runArguments items)

/-- The value of a call, given its arguments or the error that they are, which counts only after
those of the callee. -/
def runCall (arguments : Except EvalError (List Value)) :
    Expr → Except EvalError (Option Value)
  | .member link object key => do
    match ← run object with
    | none => return none
    | some v =>
      if endsChain link v then return none else return some (← callMethod v key (← arguments))
  | .privateMember link object => do
    match ← run object with
    | none => return none
    | some v => if endsChain link v then return none else .error .privateName
  | .index link object key => do
    match ← run object with
    | none => return none
    | some v =>
      if endsChain link v then return none
      else
        let k := (← run key).getD .undefined
        return some (← callMethod v k.text (← arguments))
  | .name text => do return some (← callFunction text (← arguments))
  | .paren e => runCall arguments e
  | .call link _ _ => .error (if link == .plain then .otherCallee else .calledCall)
  | _ => .error .otherCallee

end

/-- The value of an expression. -/
def eval (e : Expr) : Except EvalError Value := do
  return (← run symbols e).getD .undefined

end Expr

end Prune.Condition
