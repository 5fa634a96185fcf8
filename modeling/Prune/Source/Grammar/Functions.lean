import Prune.Source.Grammar.Types

/-!
# Functions and classes

Parameters, results and bodies of functions (`functionTail`), and classes with their members
(`classTail`).
-/

namespace Prune.Source.Grammar

open Prune.Source.Parser

variable (r : Rules) (c : Context)

/-- The context inside of a function. -/
def insideFunction (isAsync isGenerator : Bool) : Context :=
  { c with
    inOperator := true, inAsync := isAsync, inGenerator := isGenerator, inParameters := false,
    inFunction := true, inBranch := false, beforeColon := false, noConditional := false }

/-- The body of a function; where there are types it may be missing. -/
def functionBody : Parser (List Tree) := do
  if ← at? openBrace then return [← r.body c]
  else if !c.typed then fail
  else
    expectEnd
    return []

/-- What follows the name of a function: parameters, which form a series if `listed`, a result and a
body. -/
def functionTail (listed isAsync isGenerator : Bool) : Parser (List Tree) := do
  let c := insideFunction c isAsync isGenerator
  let outer := { c with inParameters := true }
  let types ← typeParameters? r outer
  expect "("
  let items ← formalParameters r outer
  expect ")"
  let result ← listIf (c.typed && (← at? ":")) (resultType r c ":")
  let body ← functionBody r c
  let parameters := if listed then [.series .list items] else items
  return types ++ parameters ++ result ++ body

/-- Whether the parts of a function hold its body. -/
def hasBody (parts : List Tree) : Bool :=
  match parts.getLast? with
  | some (.node (.statement .block) _ _) => true
  | _ => false

/-- A function that is declared, behind the word `async` if it has that. Its name may be missing
unless it is `named`. -/
def functionDeclaration (named isAsync : Bool) (lo : Nat) : Parser Tree := do
  expectWord "function"
  let isGenerator ← eat "*"
  let n ← listIf (named || (← atName? c)) (boundName c)
  let tail ← functionTail r { c with inMethod := false } true isAsync isGenerator
  node (.declaration (.function isAsync isGenerator)) lo (n ++ tail)

/-- A function that is an expression, behind the word `async` if it has that. It has a body, and may
have a name. -/
def functionExpression (isAsync : Bool) (lo : Nat) : Parser Tree := do
  expectWord "function"
  let isGenerator ← eat "*"
  let inner := { c with inAsync := isAsync, inGenerator := isGenerator }
  let n ← listIf (← atName? inner) (boundName inner)
  let tail ← functionTail r { c with inMethod := false } true isAsync isGenerator
  if hasBody tail then node (.function isAsync isGenerator) lo (n ++ tail) else fail

/-! ## Members of classes -/

/-- Whether the parameters of a method come next. -/
def atMethod? : Parser Bool := do
  return (← at? "(") || (c.typed && (← at? "<"))

/-- Whether what follows the name of a property comes next, where the name may end the member. -/
def atProperty? (mayEnd : Bool) : Parser Bool := do
  if c.typed && (← atAny? [":", "!"]) then return true
  else if ← atAny? ["=", closeBrace, ";"] then return true
  else if mayEnd then canEnd?
  else return false

/-- A method behind its name, given the words in front of that. -/
def methodTail (words : List String) (lo : Nat) (front : List Tree) (isAsync isGenerator : Bool) :
    Parser Tree := do
  let tail ← functionTail r { c with inMethod := true } true isAsync isGenerator
  node (.declaration (.member words)) lo (front ++ tail)

/-- Whether a name is that of a constructor. -/
def isConstructorName (key : Tree) : Bool :=
  match key.kind? with
  | some (.name w) => w == "constructor"
  | some (.string (some w)) => w == "constructor"
  | _ => false

/-- Whether a name is a given word. -/
def isNamed (key : Tree) (word : String) : Bool :=
  match key.kind? with
  | some (.name w) => w == word
  | _ => false

/-- A property behind its name, which cannot be that of a constructor, given the words in front of
it. -/
def propertyTail (words : List String) (lo : Nat) (front : List Tree) (key : Tree) :
    Parser Tree := do
  failIf (isConstructorName key)
  let _ ← eatIf c.typed "!"
  let type ← ascription? r c
  let c := { insideFunction c false false with inFunction := false, inMethod := true }
  let value ← initializer? r c
  let ended ← endStatement
  flawIf !ended
  node (.declaration (.member words)) lo (front ++ key :: type ++ value)

/-- A constructor behind its name, given the words in front of that. Its parameters form no series. -/
def constructorTail (words : List String) (lo : Nat) (front : List Tree) : Parser Tree := do
  let c := { insideFunction c false false with inMethod := true }
  let types ← typeParameters? r c
  expect "("
  let items ← commaList ")" (constructorParameter r { c with inParameters := true }) r.fuel
  expect ")"
  let result ← ascription? r c
  let body ← functionBody r c
  node (.declaration (.member words)) lo (front ++ types ++ items ++ result ++ body)

/-- The name of a member of a class. -/
def memberName : Parser Tree := do
  if ← at? "#" then privateName else propertyName r c

/-- What the words in front of a member of a class say. -/
structure Qualifiers where
  isStatic : Bool := false
  isAbstract : Bool := false
  isConstant : Bool := false
  /-- Whether the member overrides another. -/
  overrides : Bool := false

/-- Takes a word that qualifies a member into account. -/
def Qualifiers.add (q : Qualifiers) (word : String) : Qualifiers :=
  match word with
  | "static" => { q with isStatic := true }
  | "abstract" => { q with isAbstract := true }
  | "readonly" => { q with isConstant := true }
  | "override" => { q with overrides := true }
  | _ => q

/-- Reads the words that qualify a member of a class. -/
def memberModifiers : Nat → Qualifiers → Parser Qualifiers
  | 0, _ => fail
  | fuel + 1, q => do
    let u ← peekSecond
    let words := ["abstract", "readonly", "override"]
    let words := if u.isPunct openBrace then words else "static" :: words
    match ← modifier? c words with
    | some word => memberModifiers fuel (q.add word)
    | none => return q

/-- A block of a class that runs once. -/
def staticBlock (lo : Nat) : Parser Tree := do
  let body ← r.body { insideFunction c false false with inMethod := true }
  node (.declaration .staticBlock) lo [body]

section

-- the state in front of the words of the member
variable (start : State)

/-- The words in front of the name of a member of a class. -/
def memberWords (key : Tree) : List String :=
  start.wordsBefore key.span.lo []

/-- An asynchronous method behind its first word. -/
def asyncMember (lo : Nat) (front : List Tree) (isConstant : Bool) : Parser Tree := do
  let overriding ← modifier? c ["override"]
  flawIf overriding.isSome
  let isGenerator ← eat "*"
  let key ← memberName r c
  failIf (isConstructorName key || isConstant)
  let _ ← eatIf c.typed "?"
  methodTail r c (memberWords start key) lo (front ++ [key]) true isGenerator

/-- A member of a class behind its name. -/
def namedMember (lo : Nat) (front : List Tree) (key : Tree) (isConstant : Bool) : Parser Tree := do
  let words := memberWords start key
  let _ ← eatIf c.typed "?"
  if ← atMethod? c then
    if isConstant then fail
    else if isConstructorName key then constructorTail r c words lo (front ++ [key])
    else methodTail r c words lo (front ++ [key]) false false
  else
    let generatorFollows := (← newline?) && (← at? "*")
    let isAccessor :=
      (isNamed key "get" || isNamed key "set") && !(← atProperty? c false) && !generatorFollows
    if isAccessor then
      let key ← memberName r c
      methodTail r c (memberWords start key) lo (front ++ [key]) false false
    else if ← atProperty? c true then propertyTail r c words lo front key
    else if isNamed key "async" && !(← newline?) then asyncMember r c start lo front isConstant
    else fail

/-- A member of a class behind the words before its qualifiers. One that says who may use it is no
index signature. -/
def qualifiedMember (lo : Nat) (front : List Tree) (isStatic hasAccess : Bool) : Parser Tree := do
  let q ← memberModifiers c r.fuel { isStatic := isStatic }
  let _ ← modifier? c ["accessor"]
  let u ← peekSecond
  let mayIndex := c.typed && !q.isAbstract && !q.overrides && !hasAccess
  if q.isStatic && (← at? openBrace) then staticBlock r c lo
  else if (← atWord? "static") && u.isPunct openBrace then
    advance
    staticBlock r c lo
  else if mayIndex && (← startsIndexSignature c) then indexSignature r c lo
  else if ← eat "*" then
    let key ← memberName r c
    flawIf (isConstructorName key)
    methodTail r c (memberWords start key) lo (front ++ [key]) false true
  else
    let key ← memberName r c
    namedMember r c start lo front key q.isConstant

/-- The member that a word in front of one turns out to name, if the word was read. -/
def qualifierAsName? (lo : Nat) (front : List Tree) (word : Option Tree) (mayEnd : Bool) :
    Parser (Option Tree) := do
  match word with
  | none => return none
  | some key =>
    if (← atMethod? c) || ((← atProperty? c mayEnd) && !(← at? openBrace))
        || (c.typed && (← at? "?")) then
      return some (← namedMember r c start lo front key false)
    else return none

end

/-- A member of a class. -/
def classMember : Parser Tree := do
  let lo ← here
  if ← eat ";" then node (.declaration (.member [])) lo []
  else
    let front ← r.decorators c
    let start ← get
    let early ← wordIf c.typed "declare"
    let access ← modifier? c memberAccessWords
    let late ← wordIf (c.typed && early.isNone) "declare"
    let named ← qualifierAsName? r c start lo front (early <|> late) true
    match named with
    | some member => return member
    | none =>
      let word ← wordIf true "static"
      let named ← qualifierAsName? r c start lo front word false
      match named with
      | some member => return member
      | none => qualifiedMember r c start lo front word.isSome (access.any accessWords.contains)

/-! ## Classes -/

/-- A class or an interface that another extends or implements. -/
def heritageType : Parser Tree := do
  let lo ← here
  let e ← r.heritage c
  let types ← listIf (← at? "<") (typeArguments r c false)
  node (.declaration .heritage) lo (e :: types)

/-- Whether a list of what is extended or implemented ends here. -/
def atHeritageEnd? : Parser Bool := do
  return (← at? openBrace) || (← atAnyOf? ["implements", "extends"])

/-- Types with commas between them, up to where a list of them ends; there may be none. -/
def heritageList : Nat → Parser (List Tree)
  | 0 => fail
  | fuel + 1 => do
    if ← atHeritageEnd? then return []
    else
      let first ← heritageType r c
      let more ← eat ","
      failIf (!more && !(← atHeritageEnd?))
      let rest ← heritageList fuel
      return first :: rest

/-- The class that another extends. -/
def superClass : Parser (List Tree) := do
  let e ← r.leftHand c false
  let types ← listIf (c.typed && (← at? "<")) (typeArguments r c false)
  return e :: types

/-- What stands behind a word of a class that says what it extends, if the word comes next. -/
def extended? (allowed : Bool) : Parser (List Tree) := do
  if ← eatWordIf allowed "extends" then superClass r c else return []

/-- What stands behind a word of a class that says what it implements, if the word comes next. -/
def implemented? : Parser (List Tree) := do
  if ← eatWordIf c.typed "implements" then heritageList r c r.fuel else return []

/-- What a class extends and implements. That it extends several classes, or says one of both twice,
is a flaw. -/
def classHeritage : Parser (List Tree) := do
  let first ← extended? r c true
  let others ←
    choose (!first.isEmpty && c.typed && (← eat ",")) (heritageList r c r.fuel) (pure [])
  let again ← extended? r c true
  flawIf !again.isEmpty
  let implemented ← implemented? r c
  let implementedAgain ← implemented? r c
  let late ← extended? r c c.typed
  return first ++ others ++ again ++ implemented ++ implementedAgain ++ late

/-- A class from its word on, whose name may be missing unless it is `named`. -/
def classTail (kind : Kind) (named : Bool) (lo : Nat) (front : List Tree) : Parser Tree := do
  expectWord "class"
  let n ← listIf (named || ((← atName? c) && !(← atWord? "implements"))) (declaredName c)
  let types ← typeParameters? r c
  let heritage ← classHeritage r c
  expect openBrace
  let c := { c with inOperator := true, inBranch := false, beforeColon := false }
  let members ← collectUntil atBlockEnd? (classMember r c) r.fuel
  endBlock
  node kind lo (front ++ n ++ types ++ heritage ++ [.series .block members])

end Prune.Source.Grammar
