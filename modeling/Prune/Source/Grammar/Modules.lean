import Prune.Source.Grammar.Statements

/-!
# Imports and exports

The items of a module (`item`): statements, imports and exports. What an import or an export names
forms a series.
-/

namespace Prune.Source.Grammar

open Prune.Source.Parser

variable (r : Rules) (c : Context)

/-- The text that names a module. -/
def moduleName : Parser Unit := do
  if ← atString? then advance else fail

/-- The object that describes how a module is read, if there is one on the same line. -/
def moduleAttributes? : Parser (List Tree) := do
  let sameLine := !(← newline?)
  let asserted ← eatWordIf sameLine "assert"
  let described ← eatWordIf (sameLine && !asserted) "with"
  if asserted || described then return [← object r c] else return []

/-- The module behind the word `from`, up to the end of the statement. -/
def fromClause : Parser (List Tree) := do
  expectWord "from"
  moduleName
  let attributes ← moduleAttributes? r c
  expectEnd
  return attributes

/-- The name of an export, which may be a text. -/
def exportName : Parser Unit := do
  if (← atString?) || (← atAnyWord?) then advance else fail

/-- Reads the words behind `type as` in braces, which may be names themselves; `word` reads each. -/
def typeAsTail (word : Parser Unit) : Parser Unit := do
  if ← atAnyWord? then
    let again ← atWord? "as"
    word
    if again && (← atAnyWord?) then word

/-- A name that an export in braces mentions. The word `type` in front of a name marks it as one of
a type; it may be the name itself. -/
def exportSpecifier : Parser Tree := do
  let lo ← here
  let start ← get
  let isType ← atWord? "type"
  exportName
  let isAs := isType && (← atWord? "as")
  advanceIf (isType && (← atAnyWord?))
  choose isAs (typeAsTail exportName) (do if ← eatWord "as" then exportName)
  node (.declaration (.specifier (← wordsSince start []))) lo []

/-- The name that an import in braces binds. -/
def importedBinding : Parser Unit := do
  let _ ← boundName c

/-- A name that an import in braces mentions. A name that is not given another must be one that can
be bound, and so cannot be a text. The word `type` in front of a name marks it as one of a type; it
may be the name itself. -/
def importSpecifier : Parser Tree := do
  let lo ← here
  let start ← get
  let isType ← atWord? "type"
  let first ← peek
  exportName
  let second ← peek
  let isAs := isType && (← atWord? "as")
  let marked := isType && (← atAnyWord?)
  advanceIf marked
  choose isAs (typeAsTail (importedBinding c)) do
    if ← eatWord "as" then importedBinding c
    else failIf !isNameToken c (if marked then second else first)
  node (.declaration (.specifier (← wordsSince start []))) lo []

/-- Names in braces. -/
def specifiers (specifier : Parser Tree) : Parser (List Tree) := do
  expect openBrace
  let items ← commaList closeBrace specifier r.fuel
  expect closeBrace
  return items

/-- Another name for a module or a part of one, behind the equality sign, given the state in front of
the whole. -/
def importEquals (start : State) (lo : Nat) : Parser Tree := do
  let u ← peekSecond
  if (← atWord? "require") && u.isPunct "(" then
    advance
    expect "("
    moduleName
    expect ")"
    expectEnd
    node (.declaration (.imports (← wordsSince start []))) lo []
  else
    let n ← qualifiedName r c
    expectEnd
    node (.declaration (.imports (← wordsSince start [n]))) lo [n]

/-- The names that an import binds in braces or behind an asterisk. -/
def importedNames : Parser (List Tree) := do
  let lo ← here
  let start ← get
  if ← eat "*" then
    expectWord "as"
    let _ ← boundName c
    return [← node (.declaration (.specifier (← wordsSince start []))) lo []]
  else if ← at? openBrace then specifiers r (importSpecifier c)
  else return []

/-- An import from its names on, given the state in front of the whole. -/
def importFrom (start : State) (lo : Nat) (front : List Tree) : Parser Tree := do
  let items ← importedNames r c
  let attributes ← fromClause r c
  let words ← wordsSince start (front ++ items ++ attributes)
  node (.declaration (.imports words)) lo (.series .list (front ++ items) :: attributes)

/-- An import that starts with a name, which may be another name for something, given the state in
front of the whole. -/
def importNamed (start : State) (lo : Nat) : Parser Tree := do
  let nameLo ← here
  let t ← peek
  let _ ← boundName c
  if ← eat "=" then importEquals r c start lo
  else
    let first ← node (.declaration (.specifier [t.text])) nameLo []
    if ← atWord? "from" then importFrom r c start lo [first]
    else
      expect ","
      importFrom r c start lo [first]

/-- Reads a word in front of the names of an import if it is one that qualifies the import. -/
def importQualifier? : Parser Bool := do
  let t ← peek
  let u ← peekSecond
  let v ← peekThird
  let qualifies :=
    if t.isWord "type" then
      u.isPunct "*" || u.isPunct openBrace
        || (isNameToken c u && (!u.isWord "from" || v.isWord "from" || v.isPunct "="))
    else if t.isWord "defer" then u.isPunct "*"
    else t.isWord "source" && isNameToken c u && (!u.isWord "from" || v.isWord "from")
  advanceIf qualifies
  return qualifies

/-- An import. -/
def importItem (lo : Nat) : Parser Tree := do
  let start ← get
  let u ← peekSecond
  if u.isPunct "(" || u.isPunct "." then importStatement r c lo
  else
    advance
    if ← atString? then
      advance
      let attributes ← moduleAttributes? r c
      expectEnd
      let words ← wordsSince start attributes
      node (.declaration (.imports words)) lo (.series .list [] :: attributes)
    else
      let _ ← importQualifier? c
      if ← atName? c then importNamed r c start lo else importFrom r c start lo []

/-- The decorators behind a word of an export; they stand there or in front of the export. -/
def lateDecorators (front : List Tree) : Parser (List Tree) := do
  let late ← r.decorators c
  failIf (!front.isEmpty && !late.isEmpty)
  return front ++ late

/-- A class, a function, an interface or an expression that a module exports as its default, given
the words of the export. -/
def exportDefault (words : List String) (lo : Nat) (front : List Tree) : Parser Tree := do
  let kind : Kind := .declaration (.exports words)
  let start ← here
  let front ← lateDecorators r c front
  let u ← peekSecond
  choose ((← atWord? "abstract") && u.isWord "interface") (do flaw; advance) (pure ())
  let t ← peek
  let u ← peekSecond
  if t.isWord "abstract" && u.isWord "class" && !u.newline then
    advance
    let d ← classTail r c (.declaration .classDecl) false start front
    node kind lo [d]
  else if t.isWord "class" then
    let d ← classTail r c (.declaration .classDecl) false start front
    node kind lo [d]
  else if t.isWord "interface" then
    advance
    let d ← interface r c start
    node kind lo [d]
  else if t.isWord "function" then
    let d ← functionDeclaration r c false false start
    node kind lo [d]
  else if t.isWord "async" && u.isWord "function" && !u.newline then
    advance
    let d ← functionDeclaration r c false true start
    node kind lo [d]
  else
    let e ← r.assignment c
    expectEnd
    node kind lo [e]

/-- All names of a module, which an export passes on, given the state in front of the export. -/
def exportAll (front : State) (lo : Nat) : Parser Tree := do
  let start ← here
  let own ← get
  expect "*"
  if ← eatWord "as" then
    exportName
    let item ← node (.declaration (.specifier (← wordsSince own []))) start []
    let attributes ← fromClause r c
    let words ← wordsSince front (item :: attributes)
    node (.declaration (.exports words)) lo (.series .list [item] :: attributes)
  else
    let attributes ← fromClause r c
    node (.declaration (.exports (← wordsSince front attributes))) lo attributes

/-- Names that a module exports, given the state in front of the export. -/
def exportNames (front : State) (lo : Nat) : Parser Tree := do
  let items ← specifiers r exportSpecifier
  let attributes ← choose (← atWord? "from") (fromClause r c) (do let _ ← eat ";"; return [])
  let words ← wordsSince front (items ++ attributes)
  node (.declaration (.exports words)) lo (.series .list items :: attributes)

/-- The declaration that a module exports, if one follows. -/
def exportedDeclaration? (front : List Tree) : Parser (Option Tree) := do
  let lo ← here
  let t ← peek
  let u ← peekSecond
  if t.isWord "class" then return some (← classTail r c (.declaration .classDecl) true lo front)
  else if t.isWord "async" && u.isWord "function" && !u.newline then
    advance
    return some (← functionDeclaration r c true true lo)
  else if t.isWord "function" then
    return some (← functionDeclaration r c true false lo)
  else if t.isWord "const" && u.isWord "enum" then
    advance
    advance
    return some (← enumeration r c lo)
  else if t.isAnyWord ["var", "const"] || (t.isWord "let" && followsLet u) then
    return some (← variableList r c lo (t.word?.getD ""))
  else return none

/-- What only an export of a typed module can be, given the state in front of the export. -/
def typedExport? (before : State) (lo : Nat) (front : List Tree) : Parser (Option Tree) := do
  let start ← here
  let declares ← eatWord "declare"
  let words ← wordsSince before []
  let ambient ← choose declares (ambient? r c start front) (pure none)
  match ambient with
  | some d => return some (← node (.declaration (.exports words)) lo [d])
  | none =>
    match ← attempt (wordedFrom? r c start front) with
    | some d => return some (← node (.declaration (.exports words)) lo [d])
    | none =>
      if ← eatWord "import" then
        let u ← peekSecond
        let _ ← eatWordIf (isNameToken c u) "type"
        let _ ← anyWord
        expect "="
        return some (← importEquals r c before lo)
      else if ← eat "=" then
        let words ← wordsSince before []
        let e ← r.expression c
        expectEnd
        return some (← node (.declaration (.exports words)) lo [e])
      else if ← eatWord "as" then
        expectWord "namespace"
        let _ ← boundName c
        expectEnd
        return some (← node (.declaration (.exports (← wordsSince before []))) lo [])
      else return none

/-- An export behind its decorators. -/
def exportItem (lo : Nat) (front : List Tree) : Parser Tree := do
  let before ← get
  advance
  match ← typedExport? r c before lo front with
  | some d => return d
  | none =>
    let t ← peek
    let u ← peekSecond
    let isType := t.isWord "type" && (u.isPunct openBrace || u.isPunct "*")
    if isType then
      advance
      if ← at? "*" then exportAll r c before lo else exportNames r c before lo
    else if ← eatWord "default" then
      let words ← wordsSince before []
      exportDefault r c words lo front
    else
      let words ← wordsSince before []
      let front ← lateDecorators r c front
      match ← exportedDeclaration? r c front with
      | some d => node (.declaration (.exports words)) lo [d]
      | none => if ← at? "*" then exportAll r c before lo else exportNames r c before lo

/-- An item of a module. The decorators of an exported class do not belong to its export. -/
def item : Parser Tree := do
  let c := statementContext c
  let lo ← here
  let front ← r.decorators c
  let start ← here
  if ← atWord? "import" then importItem r c start
  else if ← atWord? "export" then exportItem r c start front
  else statementFrom r c lo front true

end Prune.Source.Grammar
