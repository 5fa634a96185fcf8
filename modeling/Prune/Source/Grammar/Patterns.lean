import Prune.Source.Grammar.Basic

/-!
# Names, patterns and parameters

The names of properties (`propertyName`), the patterns that declarations bind (`binding`), and the
parameters of functions (`formalParameters`), with their types and defaults.
-/

namespace Prune.Source.Grammar

open Prune.Source.Parser

variable (r : Rules) (c : Context)

/-- The expression of a computed name. Where there are types, commas in it are a flaw. -/
def computedKey : Parser Tree := do
  let lo ← here
  let c := { c with inOperator := true }
  let first ← r.assignment c
  if c.typed && (← at? ",") then
    flaw
    let done := do return !(← at? ",")
    let rest ← collectUntil done (do expect ","; r.assignment c) r.fuel
    node .sequence lo (first :: rest)
  else return first

/-- The name of a property. -/
def propertyName : Parser Tree := do
  let lo ← here
  match (← peek).kind with
  | .word w _ => leaf (.name w)
  | .string value => leaf (.string value)
  | .number x => leaf (.number x)
  | .bigint => textLeaf .bigint
  | .punct "[" =>
    advance
    let e ← computedKey r c
    expect "]"
    node .computedName lo [e]
  | _ => fail

/-- The type behind a colon. -/
def typeAscription : Parser Tree := do
  let lo ← here
  expect ":"
  let t ← r.type { c with noConditional := false }
  node (.type .ascription) lo [t]

/-- The type behind a colon, if there is one. -/
def ascription? : Parser (List Tree) := do
  if c.typed && (← at? ":") then return [← typeAscription r c] else return []

/-- The default behind an equality sign, if there is one. -/
def initializer? : Parser (List Tree) := do
  if ← eat "=" then return [← r.assignment { c with inOperator := true }] else return []

/-- A pattern with a default, if one follows. -/
def withDefault (lo : Nat) (pattern : Tree) : Parser Tree := do
  match ← initializer? r c with
  | [] => return pattern
  | defaults => node (.pattern .defaulted) lo (pattern :: defaults)

/-- A pattern with an optional default. -/
def bindingElement : Parser Tree := do
  let lo ← here
  let pattern ← r.binding c
  withDefault r c lo pattern

/-- The rest of a list or a record behind its three points. A comma behind it is a flaw. -/
def restElement : Parser Tree := do
  let lo ← here
  expect "..."
  let pattern ← r.binding c
  flawIf (← at? ",")
  node (.pattern .rest) lo [pattern]

/-- Whether a tree is a name. -/
def isNameTree (t : Tree) : Bool :=
  match t.kind? with
  | some (.name _) => true
  | _ => false

/-- Whether a tree is a pattern with a default. -/
def isDefaulted (t : Tree) : Bool :=
  match t.kind? with
  | some (.pattern .defaulted) => true
  | _ => false

/-- Whether the last of some properties is a rest that is no name. -/
def endsInRestPattern (properties : List Tree) : Bool :=
  match properties.getLast? with
  | some (.node (.pattern .rest) _ [p]) => !isNameTree p
  | _ => false

/-- An element of an array pattern: nothing between two commas is a hole. -/
def arrayPatternElement : Parser Tree := do
  let lo ← here
  if ← at? "," then return .node .hole ⟨lo, lo⟩ []
  else if ← at? "..." then restElement r c
  else bindingElement r c

/-- A property of an object pattern. -/
def objectPatternProperty : Parser Tree := do
  let lo ← here
  if ← at? "..." then restElement r c
  else
    let key ← propertyName r c
    if ← eat ":" then
      let value ← bindingElement r c
      node (.pattern .property) lo [key, value]
    else
      match key.kind? with
      | some (.name w) =>
        let defaults ← initializer? r c
        flawIf (defaults.isEmpty && isReserved w)
        node (.pattern .property) lo (key :: defaults)
      | _ => fail

/-- The name or the pattern that a declaration binds. -/
def binding : Parser Tree := do
  let lo ← here
  match (← peek).kind with
  | .punct "[" =>
    advance
    let elements ← commaList "]" (arrayPatternElement r c) r.fuel
    expect "]"
    let _ ← eatIf c.ambient "?"
    node (.pattern .array) lo elements
  | .punct "\x7b" =>
    advance
    let properties ← commaList closeBrace (objectPatternProperty r c) r.fuel
    expect closeBrace
    failIf (endsInRestPattern properties)
    let _ ← eatIf c.ambient "?"
    node (.pattern .object) lo [.series .list properties]
  | _ => boundName c

/-! ## Parameters -/

/-- The words that say who may use a member. -/
def accessWords : List String := ["public", "protected", "private"]

/-- The words that qualify a member where they say who may use it, and two that may stand in their
place. -/
def memberAccessWords : List String := accessWords ++ ["in", "out"]

/-- Whether what a word qualifies can start with a token. -/
def followsModifier (t : Token) : Bool :=
  !t.newline
    && match t.kind with
      | .word _ _ | .string _ | .number _ | .bigint => true
      | .punct p => ["[", openBrace, "*", "...", "#"].contains p
      | _ => false

/-- Reads one of some words where it qualifies what follows it. -/
def modifier? (words : List String) : Parser (Option String) := do
  let t ← peek
  let u ← peekSecond
  match t.keyword? with
  | some w =>
    if c.typed && words.contains w && followsModifier u then
      advance
      return some w
    else return none
  | none => return none

/-- Reads a word that qualifies a parameter, and tells whether one stands there. -/
def parameterModifier? : Parser Bool := do
  let t ← peek
  let u ← peekSecond
  let words := "readonly" :: accessWords
  let qualifies :=
    c.typed && t.isAnyWord words && (u.word?.isSome || u.isAnyPunct [openBrace, "["])
  let _ ← choose qualifies (modifier? c words) (pure none)
  return qualifies

/-- A parameter that gathers what is left, which may be given a default if `defaulted`. -/
def restParameter (defaulted : Bool) : Parser Tree := do
  let lo ← here
  expect "..."
  let pattern ← r.binding c
  let defaults ← choose defaulted (initializer? r c) (pure [])
  flawIf !defaults.isEmpty
  let type ← ascription? r c
  let rest ← node (.pattern .rest) lo (pattern :: defaults ++ type)
  let marked ← eatIf (c.typed && defaulted) "?"
  flawIf (marked || (← at? ","))
  return rest

/-- A pattern with a default, a question mark and a type, in that order, and a default again. -/
def formalPattern : Parser Tree := do
  let qualified ← parameterModifier? c
  flawIf qualified
  let lo ← here
  let element ← bindingElement r c
  let marked ← eatIf c.typed "?"
  failIf (marked && isDefaulted element && !c.ambient)
  let type ← ascription? r c
  match ← initializer? r c with
  | [] =>
    match type with
    | [] => return element
    | _ =>
      let kind := element.kind?.getD (.pattern .defaulted)
      node kind lo (element :: type)
  | defaults => node (.pattern .defaulted) lo (element :: type ++ defaults)

/-- A parameter of a function. -/
def formalParameter : Parser Tree := do
  let lo ← here
  let decorators ← r.decorators c
  let start ← get
  let pattern ← choose (← at? "...") (restParameter r c true) (formalPattern r c)
  let words := start.wordsBefore pattern.span.lo []
  node (.declaration (.parameter words)) lo (decorators ++ [pattern])

/-- The parameters of a function up to the closing parenthesis, which is not read. -/
def formalParameters : Parser (List Tree) :=
  commaList ")" (formalParameter r c) r.fuel

/-- A parameter of a constructor behind its decorators. One that is a member too must be a name. -/
def constructorPattern : Parser Tree := do
  let access ← modifier? c memberAccessWords
  let overriding ← modifier? c ["override"]
  let constant ← modifier? c ["readonly"]
  let pattern ← formalPattern r c
  let isMember := access.any accessWords.contains || overriding.isSome || constant.isSome
  failIf (isMember && !(isNameTree pattern || isDefaulted pattern))
  return pattern

/-- A parameter of a constructor. -/
def constructorParameter : Parser Tree := do
  let lo ← here
  let decorators ← r.decorators c
  let start ← get
  let pattern ← choose (← at? "...") (restParameter r c false) (constructorPattern r c)
  let words := start.wordsBefore pattern.span.lo []
  node (.declaration (.parameter words)) lo (decorators ++ [pattern])

end Prune.Source.Grammar
