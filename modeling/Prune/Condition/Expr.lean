import Prune.Source.Tree
import Prune.Value.Basic

/-!
# Expressions of conditions

The expressions that conditions can be made of (`Expr`), and the expression that a syntax tree
spells out (`Expr.ofTree`). What cannot be evaluated keeps its place in the expression, so that it
is an error only where evaluation reaches it.
-/

namespace Prune.Condition

open Prune.Source (Tree Link)

/-- The prefix operators. -/
inductive UnaryOp where
  | not | minus | plus | complement | typeOf | void | delete
deriving DecidableEq, Repr, Inhabited

/-- How the operators are written. -/
def UnaryOp.text : UnaryOp → String
  | .not => "!"
  | .minus => "-"
  | .plus => "+"
  | .complement => "~"
  | .typeOf => "typeof"
  | .void => "void"
  | .delete => "delete"

/-- The prefix operators. -/
def UnaryOp.all : List UnaryOp :=
  [.not, .minus, .plus, .complement, .typeOf, .void, .delete]

/-- The binary operators. -/
inductive BinaryOp where
  | looseEq | looseNe | strictEq | strictNe | lt | le | gt | ge | shiftLeft | shiftRight
  | shiftRightUnsigned | add | sub | mul | div | mod | exp | bitOr | bitXor | bitAnd | or | and
  | coalesce | isIn | instanceOf
deriving DecidableEq, Repr, Inhabited

/-- How the operators are written. -/
def BinaryOp.text : BinaryOp → String
  | .looseEq => "=="
  | .looseNe => "!="
  | .strictEq => "==="
  | .strictNe => "!=="
  | .lt => "<"
  | .le => "<="
  | .gt => ">"
  | .ge => ">="
  | .shiftLeft => "<<"
  | .shiftRight => ">>"
  | .shiftRightUnsigned => ">>>"
  | .add => "+"
  | .sub => "-"
  | .mul => "*"
  | .div => "/"
  | .mod => "%"
  | .exp => "**"
  | .bitOr => "|"
  | .bitXor => "^"
  | .bitAnd => "&"
  | .or => "||"
  | .and => "&&"
  | .coalesce => "??"
  | .isIn => "in"
  | .instanceOf => "instanceof"

/-- The binary operators. -/
def BinaryOp.all : List BinaryOp :=
  [.looseEq, .looseNe, .strictEq, .strictNe, .lt, .le, .gt, .ge, .shiftLeft, .shiftRight,
    .shiftRightUnsigned, .add, .sub, .mul, .div, .mod, .exp, .bitOr, .bitXor, .bitAnd, .or, .and,
    .coalesce, .isIn, .instanceOf]

mutual

/-- An expression. -/
inductive Expr where
  | null
  | bool (b : Bool)
  | number (x : Float)
  /-- A text, which has none when its surrogates are not in pairs. -/
  | string (value : Option String)
  /-- A literal of another kind. -/
  | otherLiteral
  | name (text : String)
  | paren (e : Expr)
  | unary (op : UnaryOp) (e : Expr)
  | binary (op : BinaryOp) (left right : Expr)
  | conditional (test yes no : Expr)
  | sequence (es : List Expr)
  | template (parts : List Part)
  | array (items : List Item)
  | member (link : Link) (object : Expr) (key : String)
  | privateMember (link : Link) (object : Expr)
  | index (link : Link) (object key : Expr)
  | call (link : Link) (callee : Expr) (arguments : List Item)
  /-- A call that loads a module. -/
  | importCall
  /-- Any other expression. -/
  | other
deriving Inhabited

/-- A part of a template. -/
inductive Part where
  /-- A piece of text, which has none when it holds a bad escape. -/
  | piece (value : Option String)
  | value (e : Expr)

/-- An argument or an element of an array. -/
inductive Item where
  | hole
  | value (e : Expr)
  | spread

end

namespace Expr

mutual

/-- The expression that a syntax tree spells out. -/
def ofTree : Tree → Expr
  | .node .null _ _ => .null
  | .node (.boolean b) _ _ => .bool b
  | .node (.number x) _ _ => .number x
  | .node (.string value) _ _ => .string value
  | .node (.bigint _) _ _ => .otherLiteral
  | .node (.regex _) _ _ => .otherLiteral
  | .node (.name text) _ _ => .name text
  | .node .paren _ [e] => .paren (ofTree e)
  | .node (.unary op) _ [e] =>
    match UnaryOp.all.find? fun u => u.text == op with
    | some u => .unary u (ofTree e)
    | none => .other
  | .node (.binary op) _ [left, right] =>
    match BinaryOp.all.find? fun b => b.text == op with
    | some b => .binary b (ofTree left) (ofTree right)
    | none => .other
  | .node .conditional _ [test, yes, no] => .conditional (ofTree test) (ofTree yes) (ofTree no)
  | .node .sequence _ es => .sequence (ofTrees es)
  | .node .template _ parts => .template (partsOfTrees parts)
  | .node .array _ [.series _ items] => .array (itemsOfTrees items)
  | .node (.member link) _ [object, .node (.name key) _ _] => .member link (ofTree object) key
  | .node (.member link) _ [object, .node (.privateName _) _ _] =>
    .privateMember link (ofTree object)
  | .node (.index link) _ [object, key] => .index link (ofTree object) (ofTree key)
  | .node (.call link) _ [callee, .series _ items] =>
    .call link (ofTree callee) (itemsOfTrees items)
  | .node (.importCall _) _ _ => .importCall
  | _ => .other

/-- The expressions that syntax trees spell out. -/
def ofTrees : List Tree → List Expr
  | [] => []
  | t :: ts => ofTree t :: ofTrees ts

/-- The parts of a template that syntax trees spell out. -/
def partsOfTrees : List Tree → List Part
  | [] => []
  | .node (.piece value) _ _ :: ts => .piece value :: partsOfTrees ts
  | t :: ts => .value (ofTree t) :: partsOfTrees ts

/-- The items that syntax trees spell out. -/
def itemsOfTrees : List Tree → List Item
  | [] => []
  | .node .hole _ _ :: ts => .hole :: itemsOfTrees ts
  | .node .spread _ _ :: ts => .spread :: itemsOfTrees ts
  | t :: ts => .value (ofTree t) :: itemsOfTrees ts

end

end Expr

end Prune.Condition
