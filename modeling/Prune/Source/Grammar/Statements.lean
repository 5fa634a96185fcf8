import Prune.Source.Grammar.Expressions

/-!
# Statements and declarations

The grammar of statements (`statement`) with the declarations among them. A statement that stands
where a list of statements could not is marked as lone.
-/

namespace Prune.Source.Grammar

open Prune.Source.Parser

variable (r : Rules) (c : Context)

/-- The context of a fresh statement. -/
def statementContext : Context :=
  { c with inOperator := true, inBranch := false, beforeColon := false, noConditional := false }

/-- A lone statement. -/
def lone : Parser Tree := do
  let s ← r.statement c false
  return .series .lone [s]

/-- Statements in braces. -/
def body : Parser Tree := do
  let lo ← here
  let c := statementContext c
  expect openBrace
  let items ← collectUntil atBlockEnd? (r.statement c true) r.fuel
  endBlock
  node (.statement .block) lo [.series .block items]

/-- An expression in parentheses. -/
def condition : Parser Tree := do
  expect "("
  let e ← r.expression c
  expect ")"
  return e

/-! ## Variables -/

/-- A variable with its type and its initial value, which patterns need. -/
def declarator (word : String) (inFor : Bool) : Parser Tree := do
  let lo ← here
  failIf ((word == "let" || word == "const") && (← atWord? "let"))
  let p ← r.binding c
  let _ ← eatIf (c.typed && isNameTree p) "!"
  let type ← ascription? r c
  if inFor && (← atAnyOf? ["in", "of"]) then node (.declaration .declarator) lo (p :: type)
  else if ← eat "=" then
    let e ← r.assignment c
    flawIf (holdsDefault e)
    node (.declaration .declarator) lo (p :: type ++ [e])
  else
    let optional := isNameTree p || c.ambient || (word == "const" && c.typed)
    if optional then node (.declaration .declarator) lo (p :: type) else fail

/-- Variables with commas between them. That a semicolon stands in the place of one is a flaw. -/
def declarators (word : String) (inFor : Bool) : Nat → Parser (List Tree)
  | 0 => fail
  | fuel + 1 => do
    if ← at? ";" then
      flaw
      return []
    else
      let first ← declarator r c word inFor
      if ← eat "," then
        let rest ← declarators word inFor fuel
        return first :: rest
      else return [first]

/-- Whether the head of a loop ends behind what it loops over, with no variable before it. -/
def lacksVariable : Parser Bool :=
  lookahead do
    if ← atAnyOf? ["of", "in"] then
      advance
      let _ ← r.assignment c
      at? ")"
    else return false

/-- Reads tokens up to where a statement can end, or to what is no token. -/
def skipStatement : Nat → Parser Unit
  | 0 => fail
  | fuel + 1 => do
    if (← endStatement) || (← peek).kind == .bad then pure ()
    else
      advance
      skipStatement fuel

/-- A declaration of variables from its last word on, given all its words. What stands behind it on
the same line is a flaw and skipped. -/
def variableList (lo : Nat) (word : String) : Parser Tree := do
  advance
  let c := { c with inOperator := true }
  let items ← declarators r c word false r.fuel
  choose (← endStatement) (pure ()) do
    flaw
    let _ ← recover (r.expression c)
    skipStatement r.fuel
  node (.declaration (.bindings word)) lo [.series .declarators items]

/-- The variables that the head of a loop declares. That there are none is a flaw. -/
def loopVariables : Parser Tree := do
  let lo ← here
  let word := (← peek).word?.getD ""
  advance
  if c.typed && (← lacksVariable r c) then
    flaw
    node (.declaration (.bindings word)) lo [.series .declarators []]
  else
    let items ← declarators r { c with inOperator := word != "var" } word true r.fuel
    node (.declaration (.bindings word)) lo [.series .declarators items]

/-- Whether the word `let` starts a declaration, given the token behind it. -/
def followsLet (t : Token) : Bool :=
  isWordWhere (fun w => !isReserved w || w == "enum") t || t.isAnyPunct ["[", openBrace]

/-! ## Declarations of types -/

/-- Reads tokens up to the brace that opens a body. -/
def skipToBody : Nat → Parser Unit
  | 0 => fail
  | fuel + 1 => do
    if (← at? openBrace) || (← atStop?) then pure ()
    else
      modify fun s => s.after s.tok
      skipToBody fuel

/-- An interface behind its word. What stands behind a second `extends` is a flaw and skipped. -/
def interface (lo : Nat) : Parser Tree := do
  let n ← anyWord
  let types ← typeParameters? r c
  let heritage ← choose (← eatWord "extends") (heritageList r c r.fuel) (pure [])
  choose (← atWord? "extends") (do flaw; skipToBody r.fuel) (pure ())
  let start ← here
  let members ← typeMembers r c
  let record ← node (.type .record) start [members]
  node (.declaration .interface) lo (n :: types ++ heritage ++ [record])

/-- An alias of a type behind its word. -/
def typeAlias (lo : Nat) : Parser Tree := do
  let n ← anyWord
  let types ← typeParameters? r c
  expect "="
  let type ← r.type c
  expectEnd
  node (.declaration .typeAlias) lo (n :: types ++ [type])

/-- The name of a member of an enumeration. That it is a number or computed is a flaw. -/
def enumeratorName : Parser Tree := do
  let lo ← here
  match (← peek).kind with
  | .string value => leaf (.string value)
  | .number x =>
    flaw
    leaf (.number x)
  | .punct "[" =>
    advance
    flaw
    let e ← r.expression c
    expect "]"
    node .computedName lo [e]
  | _ => anyWord

/-- A member of an enumeration. A token that stands where a comma should is taken for one. -/
def enumerator : Parser Tree := do
  let lo ← here
  let key ← enumeratorName r c
  if ← eat "=" then
    let value ← r.assignment c
    node (.declaration .enumerator) lo [key, value]
  else
    let member ← node (.declaration .enumerator) lo [key]
    if ← atAny? [",", closeBrace] then return member
    else
      flaw
      advance
      replace { (← peek) with kind := .punct "," }
      return member

/-- The members of an enumeration up to its closing brace. That a comma is missing is a flaw. -/
def enumerators : Nat → Parser (List Tree)
  | 0 => fail
  | fuel + 1 => do
    if ← at? closeBrace then return []
    else
      let first ← enumerator r c
      let separated ← eat ","
      flawIf (!separated && !(← at? closeBrace))
      let rest ← enumerators fuel
      return first :: rest

/-- An enumeration behind its word. -/
def enumeration (lo : Nat) : Parser Tree := do
  let n ← anyWord
  expect openBrace
  let members ← enumerators r c r.fuel
  expect closeBrace
  node (.declaration .enumeration) lo [n, .series .list members]

/-- The items of a namespace in braces. -/
def namespaceBlock : Parser Tree := do
  expect openBrace
  let items ← collectUntil atBlockEnd? (r.item (statementContext c)) r.fuel
  endBlock
  return .series .block items

/-- Reads a further word of the name of a namespace. -/
def spaceStep (lo : Nat) (outer : Tree) : Parser (Option Tree) := do
  if ← eat "." then
    let n ← anyWord
    return some (← node (.member .plain) lo [outer, n])
  else return none

/-- A namespace behind its word, whose name may have points in it. -/
def space (lo : Nat) : Parser Tree := do
  let start ← here
  let first ← anyWord
  let n ← iterate (spaceStep start) r.fuel first
  let items ← namespaceBlock r c
  node (.declaration (.space "")) lo [n, items]

/-- A module that is named by a text or the word `global`, from its name on. -/
def externalModule (lo : Nat) : Parser Tree := do
  let t ← peek
  advance
  if ← at? openBrace then
    let items ← namespaceBlock r c
    node (.declaration (.space t.text)) lo [items]
  else
    expectEnd
    node (.declaration (.space t.text)) lo []

/-- Whether a text comes next. -/
def atString? : Parser Bool := do
  match (← peek).kind with
  | .string _ => return true
  | _ => return false

/-- A declaration that starts with a word that is no reserved one, behind that word. Unless the word
must start a declaration it only does so in front of what fits. -/
def worded? (lo : Nat) (front : List Tree) (word : String) (must : Bool) :
    Parser (Option Tree) := do
  let named := must || (← atName? c)
  let sameLine := !(← newline?)
  match word with
  | "abstract" =>
    if must || ((← atWord? "class") && sameLine) then
      return some (← classTail r c (.declaration .classDecl) true lo front)
    else if ← eatWordIf sameLine "interface" then
      flaw
      return some (← interface r c lo)
    else return none
  | "interface" => if named then return some (← interface r c lo) else return none
  | "module" =>
    if !must && !sameLine then return none
    else if ← atStop? then fail
    else if ← atString? then return some (← externalModule r c lo)
    else if named then return some (← space r c lo)
    else return none
  | "namespace" => if named then return some (← space r c lo) else return none
  | "type" => if must || (named && sameLine) then return some (← typeAlias r c lo) else return none
  | "enum" => if named then return some (← enumeration r c lo) else return none
  | _ => return none

/-- The words that start a declaration without being reserved, and `enum`. -/
def declarationWords : List String :=
  ["abstract", "interface", "module", "namespace", "type", "enum"]

/-- A declaration that starts with one of these words, which must start one. The word `module` must
stand on the same line as what is before it. -/
def wordedFrom? (lo : Nat) (front : List Tree) : Parser (Option Tree) := do
  let t ← peek
  match t.word? with
  | some w =>
    if declarationWords.contains w && !(w == "module" && t.newline) then
      advance
      worded? r c lo front w true
    else return none
  | none => return none

/-- A declaration of code that is elsewhere, behind its word. -/
def ambient? (lo : Nat) (front : List Tree) : Parser (Option Tree) := do
  let c := { c with ambient := true }
  let u ← peekSecond
  let word := (← peek).keyword?.getD ""
  if word == "function" then
    return some (← functionDeclaration r c true false lo)
  else if word == "class" then
    return some (← classTail r c (.declaration .classDecl) true lo front)
  else if word == "const" && u.isWord "enum" then
    advance
    advance
    return some (← enumeration r c lo)
  else if word == "const" || word == "var" || word == "let" then
    return some (← variableList r c lo word)
  else if word == "global" then return some (← externalModule r c lo)
  else wordedFrom? r c lo front

/-- A declaration that starts with a name, which was read. -/
def named? (lo : Nat) (front : List Tree) (word : String) : Parser (Option Tree) := do
  if word == "declare" then ambient? r c lo front
  else if word == "global" && (← at? openBrace) then
    let items ← namespaceBlock r c
    return some (← node (.declaration (.space "global")) lo [items])
  else worded? r c lo front word false

/-! ## Statements -/

/-- A function that is declared where a lone statement stands. -/
def loneFunction : Parser Tree := do
  let lo ← here
  let f ← functionDeclaration r c true false lo
  return .series .lone [f]

/-- A statement behind a label. -/
def labelled (lo : Nat) (label : Tree) : Parser Tree := do
  let s ← choose (← atWord? "function") (loneFunction r c) (lone r c)
  node (.statement .labelled) lo [label, s]

/-- Ends a statement that is an expression. A binary operator where a semicolon should stand is a
flaw. -/
def endExpression (lo : Nat) (e : Tree) : Parser Tree := do
  if ← endStatement then node (.statement .expression) lo [e]
  else if ← atMarkOperator? then
    flaw
    let e ← binaryFrom r c r.fuel e 0
    node (.statement .expression) lo [e]
  else fail

/-- A statement that starts with an expression: a label, a declaration or the expression itself. -/
def expressionStatement (lo : Nat) (front : List Tree) : Parser Tree := do
  let e ← r.expression c
  match e.kind? with
  | some (.name w) =>
    if ← eat ":" then labelled r c lo e
    else
      let declaration ← choose c.typed (named? r c lo front w) (pure none)
      match declaration with
      | some d => return d
      | none => endExpression r c lo e
  | _ =>
    flawIf (holdsDefault e)
    endExpression r c lo e

/-- A branch on a condition. A missing parenthesis behind the condition is a flaw, and the branch is
empty then. -/
def branch (lo : Nat) : Parser Tree := do
  advance
  expect "("
  let test ← r.expression c
  if ← eat ")" then
    let yes ← lone r c
    let no ← listIf (← eatWord "else") (lone r c)
    node (.statement .branch) lo (test :: yes :: no)
  else
    flaw
    let pos ← here
    node (.statement .branch) lo [test, .series .lone [.node (.statement .empty) ⟨pos, pos⟩ []]]

/-- The head of a loop in parentheses. -/
structure LoopHead where
  parts : List Tree
  /-- The form of the loop, given whether it waits. -/
  form : Bool → Statement
  /-- Whether the loop runs over the items of something. -/
  overItems : Bool

/-- The head of a loop over the items or the names of something, behind what they are bound to. -/
def eachHead (left : Tree) : Parser LoopHead := do
  if ← eatWord "of" then
    let e ← r.assignment c
    return ⟨[left, e], .each "of", true⟩
  else
    expectWord "in"
    let e ← r.expression c
    return ⟨[left, e], .each "in", false⟩

/-- The head of a counted loop behind its first semicolon. The second may be missing behind a
condition. -/
def countedHead (front : List Tree) : Parser LoopHead := do
  let test ← choose (← eat ";") (pure []) do
    let e ← r.expression c
    let _ ← eat ";"
    return [e]
  let step ← listIf (!(← at? ")")) (r.expression c)
  let form : Statement := .counted (!front.isEmpty) (!test.isEmpty) (!step.isEmpty)
  return ⟨front ++ test ++ step, fun _ => form, false⟩

/-- The head of a loop whose variables are declared in it. -/
def declaredHead : Parser LoopHead := do
  let declared ← loopVariables r { c with inOperator := false }
  if ← atAnyOf? ["of", "in"] then eachHead r c declared
  else
    expect ";"
    countedHead r c [declared]

/-- The head of a loop over resources, which are released at the end of each round, given the words
of their declaration, the last of which is not read. -/
def usingHead (word : String) : Parser LoopHead := do
  let lo ← here
  advance
  let n ← boundName c
  let d : Tree := .node (.declaration .declarator) n.span [n]
  let declared ← node (.declaration (.bindings word)) lo [.series .declarators [d]]
  eachHead r c declared

/-- The head of a loop. -/
def loopHead : Parser LoopHead := do
  let t ← peek
  let u ← peekSecond
  let v ← peekThird
  let isUsing := t.isWord "using" && isNameToken c u && !u.newline && !u.isWord "of"
  let isAwaitUsing := t.isWord "await" && u.isWord "using" && isNameToken c v
  if t.isAnyWord ["const", "var"] || (t.isWord "let" && followsLet u) then declaredHead r c
  else if c.typed && isUsing then usingHead r c "using"
  else if c.typed && isAwaitUsing then
    advance
    usingHead r c "await using"
  else if ← eat ";" then countedHead r c []
  else
    let e ← r.expression { c with inOperator := false }
    if ← atAnyOf? ["of", "in"] then
      let left ← eachTarget e
      eachHead r c left
    else
      expect ";"
      flawIf (holdsDefault e)
      countedHead r c [e]

/-- A loop with a head in parentheses. Only one over items can wait for them. -/
def forLoop (lo : Nat) : Parser Tree := do
  advance
  let waits ← eatWord "await"
  expect "("
  let head ← loopHead r c
  expect ")"
  let s ← lone r c
  failIf (waits && !head.overItems)
  node (.statement (head.form waits)) lo (head.parts ++ [s])

/-- A loop with its condition in front. -/
def whileLoop (lo : Nat) : Parser Tree := do
  advance
  let test ← condition r c
  let s ← lone r c
  node (.statement (.loop true)) lo [test, s]

/-- A loop with its condition at the end. -/
def doLoop (lo : Nat) : Parser Tree := do
  advance
  let s ← lone r c
  expectWord "while"
  let test ← condition r c
  let _ ← endStatement
  node (.statement (.loop false)) lo [s, test]

/-- The cases of a switch, of which one that is the default can follow if none was `seen`. -/
def switchCases : Nat → Bool → Parser (List Tree)
  | 0, _ => fail
  | fuel + 1, seen => do
    let lo ← here
    let isDefault ← atWord? "default"
    if !isDefault && !(← atWord? "case") then return []
    else
      advance
      failIf (isDefault && seen)
      let test ← listIf (!isDefault) (r.expression c)
      expect ":"
      let done := do return (← atAnyOf? ["case", "default"]) || (← atBlockEnd?)
      let items ← collectUntil done (r.statement c true) r.fuel
      let first ← node (.statement .case) lo (test ++ [.series .block items])
      let rest ← switchCases fuel (seen || isDefault)
      return first :: rest

/-- A switch. -/
def switch (lo : Nat) : Parser Tree := do
  advance
  let e ← condition r c
  expect openBrace
  let cases ← switchCases r c r.fuel false
  expect closeBrace
  node (.statement .switch) lo [e, .series .block cases]

/-- What a handler is given, behind its parenthesis. -/
def handledParameter : Parser (List Tree) := do
  let p ← r.binding c
  let type ← ascription? r c
  expect ")"
  return p :: type

/-- What a handler is given, and its block, behind the word of the handler. -/
def handlerTail (lo : Nat) : Parser Tree := do
  let parameter ← choose (← eat "(") (handledParameter r c) (pure [])
  let block ← r.body c
  node (.statement .handler) lo (parameter ++ [block])

/-- A handler. -/
def handler : Parser Tree := do
  let lo ← here
  expectWord "catch"
  handlerTail r c lo

/-- A block with handlers. That there is none is a flaw. -/
def guarded (lo : Nat) : Parser Tree := do
  advance
  let block ← r.body c
  let caught ← listIf (← atWord? "catch") (handler r c)
  let finished ← listIf (← eatWord "finally") (r.body c)
  flawIf (caught.isEmpty && finished.isEmpty)
  node (.statement .guarded) lo (block :: caught ++ finished)

/-- Handlers without the block that they belong to. -/
def strayHandlers (lo : Nat) : Parser Tree := do
  flaw
  let caught ← eatWord "catch"
  let _ ← choose caught (recover (handlerTail r c lo)) (pure none)
  let finished ← eatWord "finally"
  let _ ← choose finished (recover (r.body c)) (pure none)
  failIf !(caught || finished)
  node (.statement .expression) lo []

/-- A jump to a label or out of a function, from its word on. -/
def jump (lo : Nat) (word : String) (operand : Parser Tree) : Parser Tree := do
  advance
  if (← at? ";") || (← canEnd?) then
    expectEnd
    node (.statement (.jump word)) lo []
  else
    let e ← operand
    expectEnd
    node (.statement (.jump word)) lo [e]

/-- An exception that is thrown, on the same line. -/
def throwing (lo : Nat) : Parser Tree := do
  advance
  failIf (← newline?)
  let e ← r.expression c
  expectEnd
  node (.statement .throwing) lo [e]

/-- A statement that starts with the word `import`, which is an expression here. -/
def importStatement (lo : Nat) : Parser Tree := do
  let e ← r.expression c
  let _ ← eat ";"
  node (.statement .expression) lo [e]

/-- A statement that starts with a word. -/
def wordStatement (lo : Nat) (front : List Tree) (declares : Bool) (w : String) : Parser Tree := do
  let t ← peek
  let u ← peekSecond
  let v ← peekThird
  let namesType := c.typed && u.word?.isSome && !u.newline
  let isUsing := t.isWord "using" && isNameToken c u && !u.newline
  let isAwaitUsing :=
    t.isWord "await" && u.isWord "using" && !u.newline && isNameToken c v && !v.newline
  if c.typed && w == "const" && u.isWord "enum" then
    advance
    advance
    enumeration r c lo
  else if c.typed && declares && isUsing then variableList r c lo w
  else if c.typed && declares && isAwaitUsing then
    advance
    variableList r c lo "await using"
  else if w == "async" && u.isWord "function" && !u.newline then
    advance
    functionDeclaration r c true true lo
  else
    match w with
    | "if" => branch r c lo
    | "for" => forLoop r c lo
    | "while" => whileLoop r c lo
    | "do" => doLoop r c lo
    | "switch" => switch r c lo
    | "try" => guarded r c lo
    | "catch" | "finally" => strayHandlers r c lo
    | "return" =>
      flawIf !c.inFunction
      jump lo w (r.expression c)
    | "break" | "continue" => jump lo w (boundName c)
    | "throw" => throwing r c lo
    | "debugger" =>
      advance
      expectEnd
      node (.statement .debugger) lo []
    | "with" =>
      advance
      let e ← condition r c
      let s ← lone r c
      node (.statement .scoped) lo [e, s]
    | "var" => variableList r c lo w
    | "const" => if declares then variableList r c lo w else fail
    | "let" =>
      if declares && followsLet u then variableList r c lo w
      else expressionStatement r c lo front
    | "function" =>
      flawIf !declares
      functionDeclaration r c true false lo
    | "class" =>
      flawIf !declares
      classTail r c (.declaration .classDecl) true lo front
    | "interface" | "type" | "enum" =>
      if namesType then
        advance
        match w with
        | "interface" => interface r c lo
        | "type" => typeAlias r c lo
        | _ => enumeration r c lo
      else expressionStatement r c lo front
    | "import" => if u.isPunct "(" || u.isPunct "." then importStatement r c lo else fail
    | _ => expressionStatement r c lo front

/-- A statement behind its decorators. -/
def statementFrom (lo : Nat) (front : List Tree) (declares : Bool) : Parser Tree := do
  match (← peek).kind with
  | .word w false => wordStatement r c lo front declares w
  | .punct ";" =>
    advance
    node (.statement .empty) lo []
  | .punct "\x7b" => r.body c
  | .stop => fail
  | _ => expressionStatement r c lo front

/-- A statement, and whether it may be a declaration. -/
def statement (declares : Bool) : Parser Tree := do
  let lo ← here
  let front ← r.decorators c
  statementFrom r (statementContext c) lo front declares

end Prune.Source.Grammar
