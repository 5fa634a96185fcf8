import Prune.Source.Grammar.Patterns

/-!
# Types

The grammar of types: unions and intersections of operands (`unionType`), operators, arrays and
indexed types (`typeOperand`), functions and conditional types (`type`), and the members of records
(`typeMembers`), which form a series.
-/

namespace Prune.Source.Grammar

open Prune.Source.Parser

variable (r : Rules) (c : Context)

/-! ## Parameters and arguments -/

/-- The words that qualify a type parameter, or are taken for such. -/
def typeParameterWords : List String :=
  ["public", "private", "protected", "readonly", "abstract", "const", "override", "in", "out"]

/-- Reads the words that qualify a type parameter. -/
def typeParameterModifiers : Nat → Parser Unit
  | 0 => fail
  | fuel + 1 => do
    match ← modifier? c typeParameterWords with
    | some _ => typeParameterModifiers fuel
    | none => pure ()

/-- A type parameter: a name, a bound and a default. -/
def typeParameter : Parser Tree := do
  let lo ← here
  typeParameterModifiers c r.fuel
  let n ← anyWord
  let bound ← listIf (← eatWord "extends") (r.type c)
  let default ← listIf (← eat "=") (r.type c)
  node (.type .parameter) lo (n :: bound ++ default)

/-- Type parameters in angle brackets. -/
def typeParameters : Parser Tree := do
  let lo ← here
  expect "<"
  let items ← commaList ">" (typeParameter r c) r.fuel
  expect ">"
  node (.type .parameters) lo items

/-- Type parameters, if there are any. -/
def typeParameters? : Parser (List Tree) := do
  if c.typed && (← at? "<") then return [← typeParameters r c] else return []

/-- Closes type arguments. If `alone`, the greater sign must not be the start of an operator, unless
one stands in front of it. -/
def closeArguments (alone : Bool) : Parser Unit := do
  let t ← peek
  let follows := (← get).prevKind == .punct ">"
  if alone && !follows && t.glue.kind != t.kind then fail else expect ">"

/-- Cuts a double less sign, so that the first of both comes next. -/
def cutDouble : Parser Unit := do
  if ← at? "<<" then replace (← peek).cut

/-- Type arguments in angle brackets. A double less sign counts as two. -/
def typeArguments (alone : Bool) : Parser Tree := do
  let lo ← here
  cutDouble
  expect "<"
  let items ← commaList ">" (r.type { c with noConditional := false }) r.fuel
  closeArguments alone
  node (.type .arguments) lo items

/-- Type arguments on the same line, if there are any. -/
def typeArguments? : Parser (List Tree) := do
  if !(← newline?) && (← atAny? ["<", "<<"]) then return [← typeArguments r c false]
  else return []

/-! ## Names -/

/-- Reads a further word of a name behind a point by a given parser; that no word follows is a flaw
and ends the name. -/
def qualifiedStep (word : Parser Tree) (lo : Nat) (qualifier : Tree) : Parser (Option Tree) := do
  if ← eat "." then
    if (← atAnyWord?) || (← at? "#") then
      let n ← word
      return some (← node (.member .plain) lo [qualifier, n])
    else
      flaw
      return none
  else return none

/-- A name with points in it, behind which reserved words may stand. -/
def entityName : Parser Tree := do
  let lo ← here
  let first ← anyWord
  iterate (qualifiedStep anyWord lo) r.fuel first

/-- A name with points in it, behind which only names may stand. -/
def qualifiedName : Parser Tree := do
  let lo ← here
  let first ← anyWord
  iterate (qualifiedStep (boundName c) lo) r.fuel first

/-- A named type with its arguments. -/
def typeReference : Parser Tree := do
  let lo ← here
  let qualified ← parameterModifier? c
  flawIf qualified
  let n ← entityName r
  let arguments ← typeArguments? r c
  node (.type .reference) lo (n :: arguments)

/-! ## Functions -/

/-- The result of a function behind a mark: a type, or what the function tells of an argument. -/
def resultType (mark : String) : Parser Tree := do
  let lo ← here
  expect mark
  let c := { c with noConditional := false }
  let t ← peek
  let u ← peekSecond
  let asserts := t.isWord "asserts" && isNameToken c u
  advanceIf asserts
  let v ← peekSecond
  let tells := (← atName? c) && v.isWord "is" && !v.newline
  if asserts || tells then
    let n ← anyWord
    if ← eatWordIf tells "is" then
      let type ← r.type c
      node (.type .predicate) lo [n, type]
    else node (.type .predicate) lo [n]
  else
    let type ← r.type c
    node (.type .ascription) lo [type]

/-- Whether a parameter has a default. -/
def hasDefault (parameter : Tree) : Bool :=
  parameter.parts.any isDefaulted

/-- The parameters of a function type in parentheses, which have no defaults. -/
def signatureParameters : Parser (List Tree) := do
  expect "("
  let items ← formalParameters r c
  failIf (items.any hasDefault)
  expect ")"
  return items

/-- Whether a parameter starts here; reads it up to its name. -/
def skipParameterStart : Parser Bool := do
  let _ ← parameterModifier? c
  if ← atAnyWord? then advance; return true
  else if ← atAny? ["[", openBrace] then return (← recover (r.binding c)).isSome
  else return false

/-- Whether the parenthesis that comes next opens the parameters of a function type. -/
def startsFunctionType : Parser Bool :=
  lookahead do
    expect "("
    if ← atAny? [")", "..."] then return true
    else if ← skipParameterStart r c then
      if ← atAny? [":", ",", "?", "="] then return true
      else if ← eat ")" then at? "=>"
      else return false
    else return false

/-- The type of a function or a constructor. -/
def functionType : Parser Tree := do
  let lo ← here
  let _ ← eatWord "abstract"
  let _ ← eatWord "new"
  let parameters ← typeParameters? r c
  let items ← signatureParameters r c
  let result ← resultType r c "=>"
  node (.type .function) lo (parameters ++ items ++ [result])

/-! ## Members of records -/

/-- Ends a member of a record by a comma or a semicolon, or where none is needed. -/
def endMember : Parser Unit := do
  if ← eat "," then pure () else expectEnd

/-- Whether an index signature comes next. -/
def startsIndexSignature : Parser Bool :=
  lookahead do
    expect "["
    let _ ← name c
    atAny? [":", ","]

/-- An index signature, whose words before the bracket are read. A comma in the place of its colon
is a flaw. -/
def indexSignature (lo : Nat) : Parser Tree := do
  expect "["
  let n ← anyWord
  choose (← eat ",") flaw (expect ":")
  let key ← r.type { c with noConditional := false }
  expect "]"
  let type ← ascription? r c
  endMember
  node (.type .index) lo (n :: key :: type)

/-- A function signature of a record, whose words before the parameters are read. -/
def callSignature (lo : Nat) (key : List Tree) : Parser Tree := do
  let parameters ← typeParameters? r c
  let items ← signatureParameters r c
  let result ← listIf (← at? ":") (resultType r c ":")
  endMember
  node (.type .member) lo (key ++ parameters ++ items ++ result)

/-- The name of a member of a record. A literal may have members that hang on it. -/
def signatureName : Parser Tree := do
  let lo ← here
  match (← peek).kind with
  | .string _ | .number _ => r.newCallee c
  | .punct "[" =>
    advance
    let e ← r.assignment { c with inOperator := true }
    expect "]"
    node .computedName lo [e]
  | .punct "#" =>
    flaw
    privateName
  | _ => anyWord

/-- A property or a method of a record; a method cannot be `constant`. -/
def propertySignature (lo : Nat) (constant : Bool) : Parser Tree := do
  let key ← signatureName r c
  let _ ← eat "?"
  if ← atAny? ["(", "<"] then
    if constant then fail else callSignature r c lo [key]
  else
    let type ← ascription? r c
    endMember
    node (.type .member) lo (key :: type)

/-- An accessor of a record. -/
def accessorSignature (lo : Nat) : Parser (Option Tree) := do
  let getter ← eatWord "get"
  choose getter (pure ()) (expectWord "set")
  let key ← signatureName r c
  if getter then
    expect "("
    expect ")"
    let type ← ascription? r c
    endMember
    return some (← node (.type .member) lo (key :: type))
  else
    let items ← signatureParameters r c
    failIf items.isEmpty
    endMember
    return some (← node (.type .member) lo (key :: items))

/-- A member of a record. -/
def typeMember : Parser Tree := do
  let lo ← here
  let u ← peekSecond
  if ← atAny? ["(", "<"] then callSignature r c lo []
  else if (← atWord? "new") && (u.isPunct "(" || u.isPunct "<") then
    advance
    callSignature r c lo []
  else
    let constant ← modifier? c ["readonly"]
    if ← startsIndexSignature c then indexSignature r c lo
    else
      let accessor ← attemptIf constant.isNone (accessorSignature r c lo)
      match accessor with
      | some t => return t
      | none => propertySignature r c lo constant.isSome

/-- The members of a record in braces. -/
def typeMembers : Parser Tree := do
  expect openBrace
  let items ← collectUntil (at? closeBrace) (typeMember r c) r.fuel
  expect closeBrace
  return .series .members items

/-- Whether a mapped type starts here. -/
def startsMappedType : Parser Bool :=
  lookahead do
    expect openBrace
    if ← atAny? ["+", "-"] then
      advance
      atWord? "readonly"
    else
      let _ ← eatWord "readonly"
      expect "["
      let _ ← name c
      atWord? "in"

/-- Reads a sign and what it changes, which may stand without the sign. -/
def mappedModifier (change : Parser Bool) : Parser Unit := do
  if ← atAny? ["+", "-"] then
    advance
    if ← change then pure () else fail
  else
    let _ ← change

/-- A type that maps the members of another. -/
def mappedType : Parser Tree := do
  let lo ← here
  expect openBrace
  mappedModifier (eatWord "readonly")
  expect "["
  let n ← anyWord
  expectWord "in"
  let keys ← r.type c
  let renamed ← listIf (← eatWord "as") (r.type c)
  expect "]"
  mappedModifier (eat "?")
  let type ← ascription? r c
  let _ ← endStatement
  expect closeBrace
  node (.type .mapped) lo (n :: keys :: renamed ++ type)

/-! ## Other types -/

/-- An element of a tuple type. -/
structure TupleElement where
  tree : Tree
  /-- Whether a question mark follows the type. -/
  optional : Bool
  /-- Whether points stand in front of the type. -/
  spread : Bool

/-- The name of an element of a tuple type, if it has one. -/
def elementLabel? : Parser (Option Tree) :=
  attempt do
    let _ ← eat "..."
    let n ← anyWord
    let _ ← eat "?"
    expect ":"
    return some n

/-- An element of a tuple type: a type, which may have a name. -/
def tupleElement : Parser TupleElement := do
  let lo ← here
  let label ← elementLabel?
  let spread ← eat "..."
  let type ← r.type c
  let optional ← eatIf (!spread) "?"
  return ⟨← node (.type .element) lo (label.toList ++ [type]), optional, spread⟩

/-- Whether elements of a tuple type are in order: behind an optional one, each is optional or
spread. -/
def inTupleOrder : Bool → List TupleElement → Bool
  | _, [] => true
  | seen, e :: es => (!seen || e.optional || e.spread) && inTupleOrder (seen || e.optional) es

/-- The pieces of a template from its opening mark or the end of a hole on, with what `hole` reads
between them. A piece may hold a bad escape only if `lenient`. -/
def templateParts (lenient : Bool) (hole : Parser Tree) : Nat → Parser (List Tree)
  | 0 => fail
  | fuel + 1 => do
    let t ← peek
    match Piece.read t.rest with
    | none => fail
    | some piece =>
      failIf (!lenient && !piece.valid)
      let lo := t.span.hi
      let hi := lo + piece.size
      let text : Tree := .node (.piece piece.value) ⟨lo, hi⟩ []
      take { t with kind := .backquote, rest := piece.rest, span := ⟨t.span.lo, hi⟩ }
      if piece.hole then
        let e ← hole
        if ← at? closeBrace then
          let parts ← templateParts lenient hole fuel
          return text :: e :: parts
        else fail
      else return [text]

/-- The pieces of a template, whose opening mark comes next. -/
def templateFrom (lenient : Bool) (hole : Parser Tree) (fuel : Nat) : Parser (List Tree) := do
  match (← peek).kind with
  | .backquote => templateParts lenient hole fuel
  | _ => fail

/-- A type made of a template. -/
def templateType : Parser Tree := do
  let lo ← here
  let parts ← templateFrom false (r.type c) r.fuel
  node (.type .template) lo parts

/-- The text that names the module of a type; that something else stands there is a flaw. -/
def importedName : Parser Unit := do
  match (← peek).kind with
  | .string _ => advance
  | _ =>
    flaw
    advance

/-- How the module of a type is read, in braces. -/
def importOptions : Parser Tree := do
  let lo ← here
  expect openBrace
  expectWord "with"
  expect ":"
  let options ← choose (← at? openBrace) (r.newCallee c) fail
  let _ ← eat ","
  expect closeBrace
  node .object lo [options]

/-- A type of another module. -/
def importedType : Parser Tree := do
  let lo ← here
  expectWord "import"
  expect "("
  importedName
  let options ← listIf ((← eat ",") && (← at? openBrace)) (importOptions r c)
  expect ")"
  let qualifier ← listIf (← eat ".") (qualifiedName r c)
  let types ← listIf (← atAny? ["<", "<<"]) (typeArguments r c false)
  node (.type .imported) lo (options ++ qualifier ++ types)

/-- The type of a value. -/
def queriedType : Parser Tree := do
  let lo ← here
  expectWord "typeof"
  if ← atWord? "import" then
    let t ← importedType r c
    node (.type .query) lo [t]
  else
    let n ← entityName r
    let types ← typeArguments? r c
    node (.type .query) lo (n :: types)

/-- The words that are types. -/
def typeWords : List String :=
  ["void", "null", "any", "boolean", "bigint", "never", "number", "object", "string", "symbol",
    "unknown", "undefined", "intrinsic"]

/-- Whether a named type can start with a word. -/
def startsReference (w : String) : Bool :=
  !(isReserved w || w == "let") || ["enum", "void", "null", "break"].contains w

/-- The type that a word starts. -/
def wordType (w : String) : Parser Tree := do
  let lo ← here
  let u ← peekSecond
  if w == "import" then importedType r c
  else if w == "typeof" then queriedType r c
  else if w == "true" || w == "false" then leaf (.type (.literal w))
  else if w == "asserts" && u.isWord "this" then
    advance
    advance
    let type ← listIf (← eatWord "is") (r.type c)
    node (.type .predicate) lo type
  else if w == "this" then
    advance
    let sameLine := !(← newline?)
    if ← eatWordIf sameLine "is" then
      let type ← r.type c
      node (.type .predicate) lo [type]
    else node (.type (.keyword w)) lo []
  else if typeWords.contains w && !u.isPunct "." then leaf (.type (.keyword w))
  else if startsReference w then typeReference r c
  else fail

/-- A type without operators around it. -/
def primaryType : Parser Tree := do
  let lo ← here
  let c' := { c with noConditional := false }
  match (← peek).kind with
  | .word w plain => if plain then typeReference r c else wordType r c w
  | .string _ | .number _ | .bigint => textLeaf fun text => .type (.literal text)
  | .backquote => templateType r c'
  | .punct "-" =>
    advance
    let t ← peek
    match t.kind with
    | .number _ | .bigint =>
      advance
      node (.type (.literal ("-" ++ t.text))) lo []
    | _ => fail
  | .punct "\x7b" =>
    if ← startsMappedType c then mappedType r c'
    else
      let members ← typeMembers r c'
      node (.type .record) lo [members]
  | .punct "[" =>
    advance
    let items ← commaList "]" (tupleElement r c') r.fuel
    expect "]"
    if inTupleOrder false items then node (.type .tuple) lo (items.map (·.tree)) else fail
  | .punct "(" =>
    advance
    let t ← r.type c'
    expect ")"
    node (.type .parenthesized) lo [t]
  | _ => fail

/-- Reads brackets behind a type. -/
def bracketStep (lo : Nat) (t : Tree) : Parser (Option Tree) := do
  let sameLine := !(← newline?)
  if ← eatIf sameLine "[" then
    if ← eat "]" then return some (← node (.type .array) lo [t])
    else
      let key ← r.type { c with noConditional := false }
      expect "]"
      return some (← node (.type .indexed) lo [t, key])
  else return none

/-- An inferred type, whose bound must not be the condition of a conditional type. -/
def inferredType : Parser Tree := do
  let lo ← here
  expectWord "infer"
  let n ← anyWord
  let bound ← attempt do
    expectWord "extends"
    let t ← r.type { c with noConditional := true }
    if !c.noConditional && (← at? "?") then return none else return some t
  node (.type .infer) lo (n :: bound.toList)

/-- An operand of a union or an intersection. -/
def typeOperand : Parser Tree := do
  let lo ← here
  if (← atWord? "keyof") || (← atWord? "unique") || (← atWord? "readonly") then
    let word ← peek
    advance
    let t ← r.typeOperand c
    node (.type (.operator word.text)) lo [t]
  else if ← atWord? "infer" then inferredType r c
  else
    let t ← primaryType r c
    iterate (bracketStep r c lo) r.fuel t

/-- Operands with a mark between them, which may also stand in front. -/
def operandList (mark : String) (form : TypeForm) (operand : Parser Tree) : Parser Tree := do
  let lo ← here
  let leading ← eat mark
  let first ← operand
  if leading || (← at? mark) then
    let done := do return !(← at? mark)
    let rest ← collectUntil done (do expect mark; operand) r.fuel
    node (.type form) lo (first :: rest)
  else return first

/-- A union of intersections. -/
def unionType : Parser Tree :=
  operandList r "|" .union (operandList r "&" .intersection (r.typeOperand c))

/-- A type that is not a conditional one. -/
def plainType : Parser Tree := do
  let u ← peekSecond
  if (← at? "<") || ((← at? "(") && (← startsFunctionType r c)) || (← atWord? "new")
      || ((← atWord? "abstract") && u.isWord "new") then
    functionType r c
  else unionType r c

/-- A type. -/
def type : Parser Tree := do
  let lo ← here
  let t ← plainType r c
  let mayExtend := !c.noConditional && !(← newline?)
  if ← eatWordIf mayExtend "extends" then
    let bound ← r.type { c with noConditional := true }
    expect "?"
    let yes ← r.type c
    expect ":"
    let no ← r.type c
    node (.type .conditional) lo [t, bound, yes, no]
  else return t

end Prune.Source.Grammar
