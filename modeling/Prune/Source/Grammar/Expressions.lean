import Prune.Source.Grammar.Functions
import Prune.Source.Grammar.Targets

/-!
# Expressions

The grammar of expressions, from the literals (`primary`) through members and calls (`leftHand`),
prefix operators (`unary`) and binary ones (`binaryFrom`) to conditional expressions, assignments
and arrow functions (`assignment`) and lists with commas (`expression`).

An arrow function is recognised by the arrow behind its parameters, which are read as expressions
first. It may only stand where an assignment starts, which the flag `arrow` says.
-/

namespace Prune.Source.Grammar

open Prune.Source.Parser

variable (r : Rules) (c : Context)

/-- Whether an expression is an arrow function without parentheses around it. -/
def isArrow (e : Tree) : Bool :=
  match e.kind? with
  | some (.arrow _) => true
  | _ => false

/-! ## Operators -/

/-- How strongly the binary operators bind; the names of some are words. -/
def precedence? (op : String) : Option Nat :=
  match op with
  | "??" => some 1
  | "||" => some 2
  | "&&" => some 3
  | "|" => some 4
  | "^" => some 5
  | "&" => some 6
  | "==" | "!=" | "===" | "!==" => some 7
  | "<" | "<=" | ">" | ">=" | "in" | "instanceof" => some 8
  | "<<" | ">>" | ">>>" => some 9
  | "+" | "-" => some 10
  | "*" | "/" | "%" => some 11
  | "**" => some 12
  | _ => none

/-- The precedence of `as`, which binds like a comparison. -/
def castPrecedence : Nat := 8

/-- The operators that assign. -/
def assignOps : List String :=
  ["=", "+=", "-=", "*=", "/=", "%=", "**=", "<<=", ">>=", ">>>=", "&=", "|=", "^=", "&&=", "||=",
    "??="]

/-- The binary operator that starts with a token, with the whole of its token and its precedence. -/
def operatorOf? (t : Token) : Option (Token × String × Nat) :=
  match t.glue.kind with
  | .punct p => (precedence? p).map fun n => (t.glue, p, n)
  | .word w _ =>
    if w == "instanceof" || (w == "in" && c.inOperator) then
      (precedence? w).map fun n => (t.glue, w, n)
    else none
  | _ => none

/-- The binary operator that comes next. -/
def operator? : Parser (Option (Token × String × Nat)) := do return operatorOf? c (← peek)

/-- Whether a binary operator comes next that is a mark. -/
def atMarkOperator? : Parser Bool := do
  match (← peek).glue.kind with
  | .punct p => return (precedence? p).isSome
  | _ => return false

/-- The assigning operator that starts with a token, with the whole of its token. -/
def assignOperatorOf? (t : Token) : Option (Token × String) :=
  match t.glue.kind with
  | .punct p => if assignOps.contains p then some (t.glue, p) else none
  | _ => none

/-- The assigning operator that comes next. -/
def assignOperator? : Parser (Option (Token × String)) := do return assignOperatorOf? (← peek)

/-- Whether a logical operator other than `??` stands at the top of an expression. -/
def isLogical (e : Tree) : Bool :=
  match e.kind? with
  | some (.binary op) => op == "&&" || op == "||"
  | _ => false

/-- Whether a prefix operator stands at the top of an expression. -/
def isPrefixed (e : Tree) : Bool :=
  match e.kind? with
  | some (.unary _) | some .await => true
  | _ => false

/-- Reads a cast behind an expression. -/
def castStep (lo : Nat) (e : Tree) : Parser Tree := do
  let isAs ← atWord? "as"
  advance
  if ← eatWordIf isAs "const" then node (.typed "as const") lo [e]
  else
    let type ← r.type c
    node (.typed (if isAs then "as" else "satisfies")) lo [e, type]

/-- Reads the operators behind an operand that bind more strongly than `least`, with their right
operands. -/
def binaryFrom : Nat → Tree → Nat → Parser Tree
  | 0, _, _ => fail
  | fuel + 1, left, least => do
    let lo := left.span.lo
    let casts := c.typed && least < castPrecedence && !(← newline?)
    if casts && ((← atWord? "as") || (← atWord? "satisfies")) then
      let e ← castStep r c lo left
      binaryFrom fuel e least
    else
      match ← operator? c with
      | none => return left
      | some (t, op, strength) =>
        if strength ≤ least then return left
        else
          take t
          failIf (op == "**" && isPrefixed left)
          let operand ← r.unary c false
          let right ← binaryFrom fuel operand (if op == "**" then strength - 1 else strength)
          flawIf (op == "??" && (isLogical left || isLogical right))
          let e ← node (.binary op) lo [left, right]
          binaryFrom fuel e least

/-- Operands with binary operators between them. An operand that cannot be read is missing if an
operator stands where reading it failed. -/
def binary (arrow : Bool) : Parser Tree := do
  let lo ← here
  match ← recover (r.unary c arrow) with
  | some left => if isArrow left then return left else binaryFrom r c r.fuel left 0
  | none =>
    match ← operator? c with
    | some _ =>
      flaw
      binaryFrom r c r.fuel (.node .missing ⟨lo, lo⟩ []) 0
    | none => fail

/-- Binary expressions with a condition in front of two branches. -/
def conditionalFrom (lo : Nat) (test : Tree) : Parser Tree := do
  if ← eat "?" then
    let yes ← r.assignment { c with inBranch := true, beforeColon := true, inOperator := true }
    expect ":"
    let no ← r.assignment { c with inBranch := true, beforeColon := false }
    node .conditional lo [test, yes, no]
  else return test

/-- A conditional expression. -/
def conditional (arrow : Bool) : Parser Tree := do
  let lo ← here
  let test ← binary r c arrow
  if isArrow test then return test else conditionalFrom r c lo test

/-! ## Assignments -/

/-- The pattern that an array or an object is. -/
def assignedPattern (e : Tree) : Parser Tree := do
  match toPattern true e with
  | some (p, flawed) =>
    flawIf flawed
    return p
  | none => fail

/-- The target of an assignment that an expression is. -/
def target (op : String) (e : Tree) : Parser Tree := do
  match e.kind? with
  | some .array | some .object => if op == "=" then assignedPattern e else fail
  | _ =>
    flawIf !isPlace e
    if isTarget e then return e else fail

/-- What the items of a loop are assigned to. That it is no place is a flaw. -/
def eachTarget (e : Tree) : Parser Tree := do
  match e.kind? with
  | some .array | some .object => assignedPattern e
  | _ =>
    flawIf !isPlace e
    return e

/-- An assignment, if an assigning operator follows an expression. -/
def assignFrom (lo : Nat) (e : Tree) : Parser Tree := do
  match ← assignOperator? with
  | none => return e
  | some (t, op) =>
    let left ← target op e
    take t
    let right ← r.assignment c
    node (.assign op) lo [left, right]

/-- Whether an expression cannot stand left of an assignment, so that none is looked for. -/
def endsAssignment (e : Tree) : Bool :=
  match e.kind? with
  | some (.arrow _) | some .conditional | some (.binary _) | some (.unary _) | some (.update _ _) =>
    true
  | _ => false

/-- Whether an expression can start with a token. -/
def startsExpression (t : Token) : Bool :=
  match t.kind with
  | .word w plain =>
    plain || !isReserved w
      || ["class", "delete", "false", "function", "import", "new", "null", "super", "this", "true",
        "typeof", "void"].contains w
  | .number _ | .bigint | .string _ | .backquote => true
  | .punct p => ["(", "[", openBrace, "+", "-", "~", "!", "++", "--", "@", "#"].contains p
  | .stop | .bad => false

/-- What stands behind the word `yield`, which must not be used in parameters. -/
def yieldExpression : Parser Tree := do
  let lo ← here
  advance
  failIf c.inParameters
  let t ← peek
  let follows := startsExpression t || t.isAnyPunct ["<", "*", "/", "/="]
  if (← at? ";") || (← canEnd?) || !follows then node (.yield false) lo []
  else
    let delegates ← eat "*"
    let e ← r.assignment c
    node (.yield delegates) lo [e]

/-- An assignment that is no markup and no arrow function with type parameters. -/
def plainAssignment : Parser Tree := do
  let lo ← here
  if c.inGenerator && (← atWord? "yield") then yieldExpression r c
  else
    let t ← peek
    let e ← conditional r c (t.word?.isSome || t.isPunct "(")
    if endsAssignment e then return e else assignFrom r c lo e

/-- An arrow function with type parameters. -/
def genericArrow : Parser (Option Tree) := do
  let lo ← here
  let types ← typeParameters r c
  match ← plainAssignment r { c with beforeColon := false } with
  | .node (.arrow isAsync) _ parts => return some (← node (.arrow isAsync) lo (types :: parts))
  | _ => return none

/-- An expression without commas. -/
def assignment : Parser Tree := do
  let u ← peekSecond
  let angled := c.typed && (← at? "<")
  let markup ← attemptIf (angled && c.markup) (do return some (← plainAssignment r c))
  match markup with
  | some e => return e
  | none =>
    let generic ← attemptIf (angled && u.word?.isSome) (genericArrow r c)
    match generic with
    | some e => return e
    | none => plainAssignment r c

/-- Expressions with commas between them. -/
def expression : Parser Tree := do
  let lo ← here
  let first ← r.assignment c
  if ← at? "," then
    let done := do return !(← at? ",")
    let rest ← collectUntil done (do expect ","; r.assignment c) r.fuel
    node .sequence lo (first :: rest)
  else return first

/-! ## Prefix and postfix operators -/

/-- The words and marks that are prefix operators. -/
def prefixOps : List String := ["delete", "void", "typeof", "+", "-", "~", "!"]

/-- The prefix operator that comes next. -/
def prefixOperator? : Parser (Option String) := do
  match (← peek).kind with
  | .punct p => return if prefixOps.contains p then some p else none
  | .word w _ => return if prefixOps.contains w then some w else none
  | _ => return none

/-- A type in angle brackets in front of an expression. -/
def assertion : Parser Tree := do
  let lo ← here
  expect "<"
  let type ← listIf (!(← eatWord "const")) (r.type c)
  expect ">"
  let e ← r.unary c false
  node (.typed "<") lo (type ++ [e])

/-- The word `await` and its operand. In front of some marks it is a name. -/
def awaitExpression : Parser Tree := do
  let lo ← here
  advance
  if ← at? "*" then fail
  else if !c.inAsync && (← atAny? [")", "]", ";", ","]) then
    flawIf c.typed
    node (.name "await") lo []
  else
    flawIf !c.inAsync
    let e ← r.unary c false
    node .await lo [e]

/-- An operand of a binary operator. -/
def unary (arrow : Bool) : Parser Tree := do
  let lo ← here
  if c.typed && !c.markup && (← at? "<") then assertion r c
  else if ← atAny? ["++", "--"] then
    let t ← peek
    advance
    let e ← r.unary c false
    flawIf !isPlace e
    node (.update t.text true) lo [e]
  else
    match ← prefixOperator? with
    | some op =>
      advance
      match ← recover (r.unary c false) with
      | some e => node (.unary op) lo [e]
      | none =>
        flaw
        let hi ← prevEnd
        node (.unary op) lo [.node .missing ⟨hi, hi⟩ []]
    | none =>
      if ← atWord? "await" then awaitExpression r c
      else
        let e ← r.leftHand c arrow
        if isArrow e || (← newline?) || !(← atAny? ["++", "--"]) then return e
        else
          flawIf !isPlace e
          let t ← peek
          advance
          node (.update t.text false) lo [e]

/-! ## Members and calls -/

/-- An argument of a call or an element of an array, which may be spread. -/
def spreadable : Parser Tree := do
  let lo ← here
  let c := { c with inOperator := true, inBranch := false, beforeColon := false }
  if ← eat "..." then
    let e ← r.assignment c
    node .spread lo [e]
  else r.assignment c

/-- The arguments of a call in parentheses. -/
def callArguments : Parser Tree := do
  expect "("
  let items ← commaList ")" (spreadable r c) r.fuel
  expect ")"
  return .series .list items

/-- How a member or a call without a question mark hangs on an expression. -/
def linkTo (e : Tree) : Link :=
  if isChain e then .chained else .plain

/-- A template behind an expression. -/
def taggedTemplate (lo : Nat) (e : Tree) (types : List Tree) : Parser Tree := do
  flawIf (isChain e)
  let parts ← templateFrom true (r.expression { c with inOperator := true, beforeColon := false })
    r.fuel
  node .tagged lo (e :: types ++ parts)

/-- The word or the private name behind a point. -/
def memberKey : Parser Tree := do
  if ← at? "#" then privateName else anyWord

/-- An index in brackets. -/
def indexTail (lo : Nat) (link : Link) (e : Tree) : Parser Tree := do
  expect "["
  let key ← r.expression { c with inOperator := true, inBranch := false, beforeColon := false }
  expect "]"
  node (.index link) lo [e, key]

/-- A call. -/
def callTail (lo : Nat) (link : Link) (e : Tree) (types : List Tree) : Parser Tree := do
  let arguments ← callArguments r c
  node (.call link) lo (e :: types ++ [arguments])

/-- Whether what follows type arguments shows that they are some. -/
def followsTypeArguments : Parser Bool := do
  let t ← peek
  if t.glue.isAnyPunct ["<", ">", "+", "-", "("] || t.kind == .backquote then return false
  else
    let cast := t.isAnyWord ["as", "satisfies"]
    let starts := startsExpression t && !t.isPunct openBrace
    return t.newline || (← operator? c).isSome || cast || !starts

/-- Whether the type parameters that come next cannot be the start of an element of markup. -/
def startsTypeParameters : Parser Bool :=
  lookahead do
    expect "<"
    let u ← peekSecond
    let _ ← eatWordIf u.word?.isSome "const"
    let _ ← anyWord
    if ← eatWord "extends" then return !(← atAny? ["=", ">", "/"])
    else atAny? [",", "="]

/-- An arrow function behind the word `async` with type parameters. -/
def asyncGenericArrow (lo : Nat) : Parser (Option Tree) := do
  let c := insideFunction c true false
  let types ← typeParameters r c
  expect "("
  let items ← formalParameters r { c with inParameters := true }
  expect ")"
  let result ← listIf (← at? ":") (resultType r c ":")
  expect "=>"
  let body ← choose (← at? openBrace) (r.body c) (r.assignment c)
  return some (← node (.arrow true) lo (types :: items ++ result ++ [body]))

/-- Type arguments behind an expression, with the call or the template that they belong to. -/
def typedSubscript (calls : Bool) (lo : Nat) (e : Tree) : Parser (Option Tree) := do
  let types ← typeArguments r c true
  if ← at? "(" then
    if calls then return some (← callTail r c lo (linkTo e) e [types]) else return none
  else if (← peek).kind == .backquote then return some (← taggedTemplate r c lo e [types])
  else if ← followsTypeArguments c then return some (← node .instantiation lo [e, types])
  else return none

/-- A member or a call behind a question mark and a point. -/
def optionalSubscript (indexes : Bool) (lo : Nat) (e : Tree) : Parser Tree := do
  if indexes && (← at? "[") then indexTail r c lo .optional e
  else if ← at? "(" then callTail r c lo .optional e []
  else if c.typed && (← at? "<") then
    let types ← typeArguments r c false
    callTail r c lo .optional e [types]
  else
    let key ← memberKey
    node (.member .optional) lo [e, key]

/-- Reads what hangs on an expression: members unless `indexes` forbids those in brackets, calls
unless `calls` forbids them, templates and types. -/
def subscriptStep (calls indexes : Bool) (lo : Nat) (e : Tree) : Parser (Option Tree) := do
  let t ← peek
  let typed ←
    attemptIf (c.typed && (t.isPunct "<" || t.isPunct "<<")) (typedSubscript r c calls lo e)
  match typed with
  | some e => return some e
  | none =>
    match t.kind with
    | .punct "!" =>
      if c.typed && !t.newline then
        advance
        return some (← node (.typed "!") lo [e])
      else return none
    | .punct "?." =>
      advance
      return some (← optionalSubscript r c indexes lo e)
    | .punct "[" => if indexes then return some (← indexTail r c lo (linkTo e) e) else return none
    | .punct "(" => if calls then return some (← callTail r c lo (linkTo e) e []) else return none
    | .punct "." =>
      advance
      let key ← memberKey
      return some (← node (.member (linkTo e)) lo [e, key])
    | .backquote => return some (← taggedTemplate r c lo e [])
    | _ => return none

/-- An expression with all that hangs on it. -/
def subscripts (calls indexes : Bool) (lo : Nat) (e : Tree) : Parser Tree :=
  iterate (subscriptStep r c calls indexes lo) r.fuel e

/-! ## Arrow functions and parentheses -/

/-- What stands between the parentheses of an expression or of the parameters of an arrow
function, and whether it can only be a parameter. -/
structure ParenItem where
  tree : Tree
  isParameter : Bool

/-- The parameter of an arrow function that an expression spells out. -/
def asParameter (e : Tree) : Parser Tree := do
  match toPattern false e with
  | some (p, flawed) =>
    flawIf flawed
    return p
  | none => fail

/-- Whether a mark behind a question mark shows that a parameter is optional. -/
def endsOptional (t : Token) : Bool :=
  t.isAnyPunct [",", ":", ")", "="]

/-- An item between parentheses that starts with a name, where there are types. -/
def namedItem : Parser Tree := do
  let lo ← here
  let e ← binary r c true
  if isArrow e then return e else assignFrom r c lo e

/-- Whether a pattern may have a type. -/
def mayHaveType (pattern : Tree) : Bool :=
  match pattern.kind? with
  | some (.name _) | some (.pattern .array) | some (.pattern .object) => true
  | _ => false

/-- The parameter that an item between parentheses turns out to be: a type or a question mark
follows its pattern. -/
def typedItem (lo : Nat) (spread : Bool) (e : Tree) : Parser ParenItem := do
  let pattern ← asParameter e
  failIf (!spread && !mayHaveType pattern)
  let type ← ascription? r c
  if spread then return ⟨← node (.pattern .rest) lo (pattern :: type), true⟩
  else
    match ← initializer? r c with
    | [] => return ⟨← node (.declaration (.parameter [])) lo (pattern :: type), true⟩
    | defaults => return ⟨← node (.pattern .defaulted) lo (pattern :: type ++ defaults), true⟩

/-- An item between parentheses, where there are types. -/
def typedParenItem : Parser ParenItem := do
  let _ ← parameterModifier? c
  let lo ← here
  let t ← peek
  let u ← peekSecond
  let spread ← eat "..."
  let e ←
    choose spread (choose (isNameToken c u) (binary r c false) (r.assignment c))
      (choose (isNameToken c t) (namedItem r c) (r.assignment c))
  let u ← peekSecond
  if (← at? "?") && endsOptional u then
    advance
    if isNameTree e then typedItem r c lo spread e else fail
  else
    let e ← choose spread (pure e) (conditionalFrom r c lo e)
    if ← at? ":" then typedItem r c lo spread e
    else if spread then return ⟨← node .spread lo [e], false⟩
    else return ⟨e, false⟩

/-- An item between parentheses. -/
def parenItem : Parser ParenItem := do
  if c.typed then typedParenItem r c else return ⟨← spreadable r c, false⟩

/-- The body of an arrow function. -/
def arrowBody (isAsync : Bool) : Parser Tree := do
  if ← at? openBrace then r.body (insideFunction c isAsync false)
  else
    r.assignment
      { c with
        inAsync := isAsync, inGenerator := false, inParameters := false, inFunction := true }

/-- Whether an item between parentheses gathers what is left. -/
def isRestItem (item : ParenItem) : Bool :=
  match item.tree.kind? with
  | some .spread | some (.pattern .rest) => true
  | _ => false

/-- An arrow function behind its arrow. Its parameters form no series. -/
def arrowTail (lo : Nat) (isAsync : Bool) (items : List ParenItem) (result : List Tree) :
    Parser Tree := do
  flawIf (items.dropLast.any isRestItem)
  let parameters ← items.mapM fun item =>
    if item.isParameter then pure item.tree else asParameter item.tree
  let body ← arrowBody r c isAsync
  node (.arrow isAsync) lo (parameters ++ result ++ [body])

/-- An arrow function whose result has a type, as a branch of a conditional expression. -/
def branchArrow (lo : Nat) (isAsync : Bool) (items : List ParenItem) : Parser (Option Tree) := do
  let result ← resultType r c ":"
  expect "=>"
  let e ← arrowTail r c lo isAsync items [result]
  if c.beforeColon && !(← at? ":") then return none else return some e

/-- The type of the result of an arrow function, before its arrow. -/
def arrowResult : Parser (Option Tree) := do
  let result ← resultType r c ":"
  if ← at? "=>" then return some result else return none

/-- An arrow function from its arrow on; a binary operator behind a body in braces is a flaw. -/
def arrowFrom (arrow : Bool) (lo : Nat) (isAsync : Bool) (items : List ParenItem)
    (result : List Tree) : Parser Tree := do
  failIf ((← newline?) || !arrow)
  expect "=>"
  let e ← arrowTail r c lo isAsync items result
  if hasBody e.parts && (← atMarkOperator?) then
    flaw
    binaryFrom r c r.fuel e 0
  else return e

/-- The expression in parentheses that items form. -/
def parenthesized (lo : Nat) (items : List Tree) : Parser Tree := do
  failIf (items.any isSpread)
  match items with
  | [] => fail
  | [e] => node .paren lo [e]
  | e :: _ =>
    let hi := (items.getLast?.getD e).span.hi
    node .paren lo [.node .sequence ⟨e.span.lo, hi⟩ items]

/-- A parenthesis at `lo` or behind the word `async` there, which may open the parameters of an arrow
function; the word is given if it was read. -/
def parenOrArrow (arrow : Bool) (lo : Nat) (word : Option Tree) : Parser Tree := do
  let isAsync := word.isSome
  expect "("
  let inner := { c with inOperator := true, beforeColon := false }
  let items ← commaList ")" (parenItem r inner) r.fuel
  expect ")"
  let colon := c.typed && (← at? ":")
  let branch ← attemptIf (colon && c.inBranch) (branchArrow r c lo isAsync items)
  match branch with
  | some e => return e
  | none =>
    let result ← attemptIf (colon && !c.beforeColon) (arrowResult r c)
    if items.any (·.isParameter) || result.isSome || (← at? "=>") then
      arrowFrom r c arrow lo isAsync items result.toList
    else
      let trees := items.map (·.tree)
      flawIf (anyHoldsDefault trees)
      match word with
      | some word => node (.call .plain) lo [word, .series .list trees]
      | none => parenthesized lo trees

/-! ## Literals -/

/-- An element of an array: nothing before a comma is a hole. -/
def arrayElement : Parser Tree := do
  let lo ← here
  if ← at? "," then return .node .hole ⟨lo, lo⟩ []
  else spreadable r c

/-- An array. -/
def array : Parser Tree := do
  let lo ← here
  expect "["
  let items ← commaList "]" (arrayElement r c) r.fuel
  expect "]"
  node .array lo [.series .list items]

/-- A method of an object behind its name. -/
def objectMethod (lo : Nat) (key : Tree) (isAsync isGenerator : Bool) : Parser Tree := do
  let tail ← functionTail r { c with inMethod := true } true isAsync isGenerator
  let words := (if isAsync then ["async"] else []) ++ if isGenerator then ["*"] else []
  node (.method words) lo (key :: tail)

/-- Whether a part of a function is one of its parameters. -/
def isParameter (part : Tree) : Bool :=
  match part.kind? with
  | some (.declaration (.parameter _)) => true
  | _ => false

/-- An accessor of an object behind its word. Its parameters form no series; one that is read has
none, and one that is written has one. -/
def objectAccessor (lo : Nat) (isGetter : Bool) : Parser Tree := do
  let key ← propertyName r c
  let tail ← functionTail r { c with inMethod := true } false false false
  flawIf ((tail.filter isParameter).length != if isGetter then 0 else 1)
  node (.method [if isGetter then "get" else "set"]) lo (key :: tail)

/-- A property of an object behind its name, which is a word and stands alone or in front of
another name. -/
def objectWordTail (lo : Nat) (key : Tree) (w : String) : Parser Tree := do
  let marked ← eat "?"
  flawIf marked
  if ← atAny? ["=", ",", closeBrace] then
    flawIf !isName c w
    match ← initializer? r c with
    | [] => node .shorthand lo [key]
    | defaults => node .defaultedShorthand lo (key :: defaults)
  else if w == "get" || w == "set" then objectAccessor r c lo (w == "get")
  else if w == "async" then
    let isGenerator ← eat "*"
    let key ← propertyName r c
    objectMethod r c lo key true isGenerator
  else fail

/-- Whether what follows the name of a property can belong to it. -/
def followsPropertyName (key : Tree) : Parser Bool := do
  let t ← peek
  match t.kind with
  | .word _ _ | .string _ | .number _ => return true
  | .punct p =>
    let marks := ["(", "[", ":", ",", "?", "=", "*", "<"]
    return marks.contains p || (p == closeBrace && isNameTree key)
  | _ => return false

/-- A property of an object behind its name. Where there are types, a name that nothing belongs to
is a flaw. -/
def propertyFrom (lo : Nat) (key : Tree) : Parser Tree := do
  if c.typed && !(← followsPropertyName key) then
    flaw
    node .property lo [key]
  else if ← eat ":" then
    let value ← r.assignment c
    node .property lo [key, value]
  else if ← atMethod? c then objectMethod r c lo key false false
  else
    match key.kind? with
    | some (.name w) => objectWordTail r c lo key w
    | _ => fail

/-- A property of an object. -/
def objectProperty : Parser Tree := do
  let lo ← here
  let c := { c with inOperator := true, inBranch := false, beforeColon := false }
  if ← at? "..." then spreadable r c
  else if ← eat "*" then
    let key ← propertyName r c
    objectMethod r c lo key false true
  else
    let _ ← parameterModifier? c
    let key ← propertyName r c
    propertyFrom r c lo key

/-- An object. -/
def object : Parser Tree := do
  let lo ← here
  expect openBrace
  let items ← commaList closeBrace (objectProperty r c) r.fuel
  expect closeBrace
  node .object lo [.series .list items]

/-- A regular expression. One that does not end takes the rest of its line. -/
def regex : Parser Tree := do
  let t ← peek
  let cs := t.front.tail
  let lo := t.span.lo
  match regexEnd cs with
  | none =>
    let (rest, size) := openRegex cs
    replace { t with kind := .bad, rest := rest, span := ⟨lo, lo + 1 + size⟩ }
    fail
  | some (rest, size, flawed) =>
    let t := { t with
      kind := .punct "/", rest := rest, span := ⟨lo, lo + 1 + size⟩, flawed := t.flawed || flawed }
    take t
    node (.regex t.text) lo []

/-- A template. -/
def template : Parser Tree := do
  let lo ← here
  let parts ← templateFrom false (r.expression { c with inOperator := true, beforeColon := false })
    r.fuel
  node .template lo parts

/-- A name, which may be the only parameter of an arrow function. -/
def nameOrArrow (arrow : Bool) : Parser Tree := do
  let lo ← here
  let n ← name c
  let sameLine := !(← newline?)
  if ← eatIf (arrow && sameLine) "=>" then arrowTail r c lo false [⟨n, true⟩] [] else return n

/-- An expression that starts with the word `async`. -/
def asyncExpression (arrow : Bool) : Parser Tree := do
  let lo ← here
  let u ← peekSecond
  let v ← peekThird
  let generic ←
    attemptIf (arrow && c.typed && u.isPunct "<") do
      advance
      if !c.markup || (← startsTypeParameters) then asyncGenericArrow r c lo else return none
  match generic with
  | some e => return e
  | none =>
    if u.isWord "function" && !u.newline then
      advance
      functionExpression r c true lo
    else if arrow && u.isPunct "(" && !u.newline then
      let word ← leaf (.name "async")
      parenOrArrow r c arrow lo (some word)
    else if arrow && isNameToken c u && !u.newline && (v.isPunct "=>" || !u.isWord "as")
        && !(u.isWord "of" && !v.isPunct "=>") then
      advance
      let n ← boundName c
      expect "=>"
      arrowTail r c lo true [⟨n, true⟩] []
    else nameOrArrow r c arrow

/-- An expression that starts with a word. -/
def wordExpression (w : String) (arrow : Bool) : Parser Tree := do
  let lo ← here
  if w == "this" then leaf .thisValue
  else if w == "null" then leaf .null
  else if w == "true" then leaf (.boolean true)
  else if w == "false" then leaf (.boolean false)
  else if w == "function" then functionExpression r c false lo
  else if w == "class" then classTail r c .classExpr false lo []
  else if w == "async" then asyncExpression r c arrow
  else nameOrArrow r c arrow

/-- A private name, whose word may stand apart from its number sign. -/
def looseName : Parser Tree := do
  let lo ← here
  expect "#"
  match (← peek).word? with
  | some w =>
    advance
    node (.privateName w) lo []
  | none => fail

/-- An expression without operators, members and calls. -/
def primary (arrow : Bool) : Parser Tree := do
  let lo ← here
  match (← peek).kind with
  | .number x => leaf (.number x)
  | .bigint => textLeaf .bigint
  | .string value => leaf (.string value)
  | .backquote => template r c
  | .word w plain => if plain then nameOrArrow r c arrow else wordExpression r c w arrow
  | .punct "(" => parenOrArrow r c arrow lo none
  | .punct "[" => array r c
  | .punct "\x7b" => object r c
  | .punct "/" => regex
  | .punct "/=" => regex
  | .punct "#" => looseName
  | .punct "@" =>
    let decorators ← r.decorators c
    classTail r c .classExpr false lo decorators
  | _ => fail

/-! ## New objects and modules -/

/-- The arguments of a call that loads a module: one or two. In scripts no comma stands behind the
last. -/
def importArguments : Parser Tree := do
  expect "("
  let items ← commaList ")" (spreadable r c) r.fuel
  let trailing := (← get).prevKind == .punct ","
  failIf (items.isEmpty || 2 < items.length || (trailing && !c.typed))
  expect ")"
  return .series .list items

/-- Reads the word that says when a module is loaded. -/
def importPhase : Parser String := do
  let t ← peek
  if ← atAnyOf? ["source", "defer"] then
    advance
    return t.text
  else fail

/-- An expression that starts with the word `import`. A module is loaded only where `calls` allows
calls. -/
def importExpression (calls : Bool) : Parser Tree := do
  let lo ← here
  expectWord "import"
  let pointed ← eat "."
  if ← eatWordIf pointed "meta" then
    flawIf !c.typed
    let e ← node (.metaProperty "import.meta") lo []
    subscripts r c calls true lo e
  else
    let phase ← choose pointed importPhase (pure "")
    failIf !calls
    let arguments ← importArguments r c
    let e ← node (.importCall phase) lo [arguments]
    subscripts r c calls true lo e

/-- The type arguments of a call, if a call with such comes next. -/
def callTypes? : Parser (Option Tree) := do
  attemptIf (c.typed && (← atAny? ["<", "<<"])) do
    let types ← typeArguments r c false
    if ← at? "(" then return some types else return none

/-- What follows the word `new`: a callee with arguments, which may be missing, and the members that
hang on the new object. -/
def newExpression : Parser Tree := do
  let lo ← here
  expectWord "new"
  if ← eat "." then
    expectWord "target"
    flawIf !c.inFunction
    let e ← node (.metaProperty "new.target") lo []
    subscripts r c false true lo e
  else
    let callee ← r.newCallee c
    failIf (isChain callee)
    let types ← callTypes? r c
    if ← at? "(" then
      let arguments ← callArguments r c
      let e ← node .new lo (callee :: types.toList ++ [arguments])
      subscripts r c false true lo e
    else node .new lo [callee]

/-- An expression on which members hang but no calls. -/
def memberExpression (arrow : Bool) : Parser Tree := do
  let lo ← here
  if ← atWord? "new" then newExpression r c
  else if ← eatWord "super" then
    flawIf !c.inMethod
    let e ← node .superValue lo []
    if ← atAny? [".", "["] then subscripts r c false true lo e else fail
  else if ← atWord? "import" then importExpression r c false
  else
    let e ← primary r c arrow
    if isArrow e then return e else subscripts r c false true lo e

/-- The callee of a new object. -/
def newCallee : Parser Tree := memberExpression r c false

/-- Whether an expression makes a new object without arguments. -/
def isBareNew (e : Tree) : Bool :=
  match e with
  | .node .new _ parts => parts.length == 1
  | _ => false

/-- A member expression and the calls that hang on it. -/
def callExpression (arrow : Bool) : Parser Tree := do
  let lo ← here
  let e ← memberExpression r c arrow
  if isArrow e || isBareNew e then return e
  else
    let types ← callTypes? r c
    if ← at? "(" then
      let e ← callTail r c lo (linkTo e) e types.toList
      subscripts r c true true lo e
    else return e

/-- An expression that may stand left of an assignment. -/
def leftHand (arrow : Bool) : Parser Tree := do
  let lo ← here
  if c.markup && (← at? "<") then r.element c .expression
  else if ← atWord? "import" then importExpression r c true
  else if ← eatWord "super" then
    flawIf !c.inMethod
    let e ← node .superValue lo []
    if ← atAny? ["(", ".", "["] then subscripts r c true true lo e else fail
  else callExpression r c arrow

/-- A word with the members and the types that hang on it. -/
def heritage : Parser Tree := do
  let lo ← here
  let n ← anyWord
  subscripts r c false false lo n

/-! ## Decorators -/

/-- The call that a decorator is, if arguments follow its expression. -/
def decoratorCall (lo : Nat) (e : Tree) : Parser Tree := do
  let types ← listIf (← at? "<") (typeArguments r c false)
  if !types.isEmpty || (← at? "(") then callTail r c lo .plain e types else return e

/-- The expression of a decorator in parentheses, behind the opening one. -/
def decoratorParen (start : Nat) : Parser Tree := do
  let e ← r.expression c
  expect ")"
  node .paren start [e]

/-- The name that a decorator is, with the members and calls that hang on it. -/
def decoratorName (start : Nat) : Parser Tree := do
  let n ← boundName c
  subscripts r c true false start n

/-- A decorator. -/
def decorator : Parser Tree := do
  let lo ← here
  expect "@"
  let start ← here
  let e ← choose (← eat "(") (decoratorParen r c start) (decoratorName r c start)
  let e ← decoratorCall r c start e
  node (.declaration .decorator) lo [e]

/-- The decorators in front of something. -/
def decorators : Parser (List Tree) := do
  if c.typed then
    let done := do return !(← at? "@")
    collectUntil done (decorator r c) r.fuel
  else return []

end Prune.Source.Grammar
