import Prune.Source.Lexer

/-!
# Parsers of syntax trees

A parser (`Parser`) reads tokens and answers with what it read or fails, and knows in both cases how
far it came. Some rules of the grammar may be broken without failure: the state then remembers that
the text is flawed. Comments count as read when the token behind them is read, so an attempt that is
taken back leaves none behind.

The rules of the grammar refer to each other, and `Rules` is what one rule knows of the others: each
is tied to the rules with one unit of fuel less (`Prune.Source.rules`).
-/

namespace Prune.Source

/-- The state of a parser. -/
structure Parser.State where
  /-- The token to read next. -/
  tok : Token
  /-- The kind of the token read last. -/
  prevKind : Token.Kind
  /-- Where the token read last ends. -/
  prevEnd : Nat
  /-- The text behind the token read last. -/
  prevRest : List Char
  /-- The comments before the tokens read, last first. -/
  comments : List Comment
  /-- Whether a rule was broken that reading goes on after. -/
  flawed : Bool
  /-- Whether the text is a module rather than a script. -/
  modular : Bool
deriving Repr, Inhabited

namespace Parser.State

/-- The token behind a place of the text. -/
def tokenAt (s : Parser.State) (pos : Nat) (rest : List Char) : Token :=
  Token.read s.modular false pos rest

/-- The state behind a token that starts with the one to read next. -/
def after (s : Parser.State) (t : Token) : Parser.State :=
  { s with
    tok := s.tokenAt t.span.hi t.rest,
    prevKind := t.kind,
    prevEnd := t.span.hi,
    prevRest := t.rest,
    comments := t.comments.reverse ++ s.comments,
    flawed := s.flawed || t.flawed }

/-- The tokens from the next one on that start before a byte, at most as many as the bound says. -/
def tokensBefore (hi : Nat) : Nat → Parser.State → List Token
  | 0, _ => []
  | fuel + 1, s =>
    if s.tok.span.lo < hi then s.tok :: tokensBefore hi fuel (s.after s.tok) else []

/-- The texts of the tokens from the next one on that start before a byte, without those in some
trees, commas and semicolons. -/
def wordsBefore (s : Parser.State) (hi : Nat) (parts : List Tree) : List String :=
  let own (t : Token) := !t.isAnyPunct [",", ";"] && !parts.any fun p => t.span.inside p.span
  ((s.tokensBefore hi (hi - s.tok.span.lo)).filter own).map Token.text

end Parser.State

/-- A parser, which keeps its state when it fails. -/
abbrev Parser := EStateM Unit Parser.State

/-- What the surroundings of a piece of text allow. -/
structure Context where
  /-- Whether there are types, decorators and modules. -/
  typed : Bool
  /-- Whether there is markup. -/
  markup : Bool
  /-- Whether the word `in` is an operator. -/
  inOperator : Bool := true
  inAsync : Bool := false
  inGenerator : Bool := false
  /-- Whether the text belongs to the parameters of a function. -/
  inParameters : Bool := false
  inFunction : Bool := false
  /-- Whether `super` may stand here. -/
  inMethod : Bool := false
  /-- Whether the text is a branch of a conditional expression. -/
  inBranch : Bool := false
  /-- Whether the text is the first branch of a conditional expression, which a colon ends. -/
  beforeColon : Bool := false
  /-- Whether the declarations describe code that is elsewhere. -/
  ambient : Bool := false
  /-- Whether a type may not be a conditional one. -/
  noConditional : Bool := false
deriving Repr, Inhabited

/-- What a rule of the grammar knows of the others. -/
structure Rules where
  /-- A bound for the number of items of a list. -/
  fuel : Nat
  /-- Expressions with commas between them. -/
  expression : Context → Parser Tree
  /-- An expression without commas. -/
  assignment : Context → Parser Tree
  /-- An operand of a binary operator, which may be the head of an arrow function. -/
  unary : Context → Bool → Parser Tree
  /-- An expression that may stand left of an assignment. -/
  leftHand : Context → Bool → Parser Tree
  /-- What stands behind the word `new`. -/
  newCallee : Context → Parser Tree
  /-- The name or the pattern that a declaration binds. -/
  binding : Context → Parser Tree
  /-- A type. -/
  type : Context → Parser Tree
  /-- An operand of a union or an intersection of types. -/
  typeOperand : Context → Parser Tree
  /-- The statements of a body in braces. -/
  body : Context → Parser Tree
  /-- A statement, and whether it may be a declaration. -/
  statement : Context → Bool → Parser Tree
  /-- An element or a fragment of markup. -/
  element : Context → Place → Parser Tree
  /-- An item of a module or a namespace. -/
  item : Context → Parser Tree
  /-- A word with the members and the types that hang on it. -/
  heritage : Context → Parser Tree
  /-- The decorators in front of something. -/
  decorators : Context → Parser (List Tree)

namespace Parser

variable {α : Type}

/-- Fails. What is no token counts as read then, so that reading can go on behind it. -/
def fail : Parser α := fun s =>
  match s.tok.kind with
  | .bad => .error () (s.after s.tok)
  | _ => .error () s

/-- Remembers that the text is flawed. -/
def flaw : Parser Unit := modify fun s => { s with flawed := true }

/-- Remembers that the text is flawed under a condition. -/
def flawIf (b : Bool) : Parser Unit := if b then flaw else pure ()

/-- The token to read next. -/
def peek : Parser Token := do return (← get).tok

/-- The token behind another. -/
def peekBehind (t : Token) : Parser Token := do
  return (← get).tokenAt t.span.hi t.rest

/-- The token behind the one to read next. -/
def peekSecond : Parser Token := do peekBehind (← peek)

/-- The token behind the one that `peekSecond` gives. -/
def peekThird : Parser Token := do peekBehind (← peekSecond)

/-- Where the token to read next starts. -/
def here : Parser Nat := do return (← get).tok.span.lo

/-- Where the token read last ends. -/
def prevEnd : Parser Nat := do return (← get).prevEnd

/-- The texts of the tokens that were read since a state, without those in some trees, commas and
semicolons. -/
def wordsSince (s : State) (parts : List Tree) : Parser (List String) := do
  return s.wordsBefore (← prevEnd) parts

/-- Takes a token as read that starts with the one to read next. -/
def take (t : Token) : Parser Unit := do
  match t.kind with
  | .bad => fail
  | _ => modify fun s => s.after t

/-- Reads a token. -/
def advance : Parser Unit := do take (← peek)

/-- Puts another token in the place of the one to read next. -/
def replace (t : Token) : Parser Unit := modify fun s => { s with tok := t }

/-- Whether the token to read next is a given mark. -/
def at? (text : String) : Parser Bool := do return (← peek).isPunct text

/-- Whether the token to read next is one of the given marks. -/
def atAny? (texts : List String) : Parser Bool := do return (← peek).isAnyPunct texts

/-- Whether the token to read next is a given word. -/
def atWord? (text : String) : Parser Bool := do return (← peek).isWord text

/-- Whether the token to read next is one of the given words. -/
def atAnyOf? (texts : List String) : Parser Bool := do return (← peek).isAnyWord texts

/-- Reads by the first of two parsers under a condition, by the second otherwise. -/
def choose (b : Bool) (p q : Parser α) : Parser α :=
  if b then p else q

/-- What a parser reads, under a condition. -/
def listIf (b : Bool) (p : Parser α) : Parser (List α) :=
  choose b (do return [← p]) (pure [])

/-- Fails under a condition. -/
def failIf (b : Bool) : Parser Unit := if b then fail else pure ()

/-- Reads a token under a condition. -/
def advanceIf (b : Bool) : Parser Unit := if b then advance else pure ()

/-- Whether the text ends here. -/
def atStop? : Parser Bool := do return (← peek).kind == .stop

/-- Whether a line ends before the token to read next. -/
def newline? : Parser Bool := do return (← peek).newline

/-- Reads a given mark if it comes next. -/
def eat (text : String) : Parser Bool := do
  if ← at? text then advance; return true else return false

/-- Reads a given word if it comes next. -/
def eatWord (text : String) : Parser Bool := do
  if ← atWord? text then advance; return true else return false

/-- Reads a given mark if it comes next and a condition holds. -/
def eatIf (b : Bool) (text : String) : Parser Bool :=
  if b then eat text else pure false

/-- Reads a given word if it comes next and a condition holds. -/
def eatWordIf (b : Bool) (text : String) : Parser Bool :=
  if b then eatWord text else pure false

/-- Reads a given mark. -/
def expect (text : String) : Parser Unit := do
  if ← at? text then advance else fail

/-- Reads a given word. -/
def expectWord (text : String) : Parser Unit := do
  if ← atWord? text then advance else fail

/-- The mark that opens a block. -/
def openBrace : String := "\x7b"

/-- The mark that closes a block. -/
def closeBrace : String := "\x7d"

/-- Ends a block; that the text ends before it is a flaw. -/
def endBlock : Parser Unit := do
  if ← atStop? then flaw else expect closeBrace

/-- Whether the statements or the members of a block end here. -/
def atBlockEnd? : Parser Bool := do return (← at? closeBrace) || (← atStop?)

/-- Whether a statement may end here without a semicolon. -/
def canEnd? : Parser Bool := do
  let t ← peek
  return t.kind == .stop || t.newline || t.isPunct closeBrace

/-- Ends a statement by a semicolon or where none is needed, and tells whether that is possible. -/
def endStatement : Parser Bool := do
  if ← eat ";" then return true else canEnd?

/-- Ends a statement. -/
def expectEnd : Parser Unit := do
  if ← endStatement then pure () else fail

/-- Takes back what a parser read when it fails or answers with nothing. -/
def attempt (p : Parser (Option α)) : Parser (Option α) := fun s =>
  match p s with
  | .ok (some a) t => .ok (some a) t
  | .ok none _ => .ok none s
  | .error _ _ => .ok none s

/-- What a parser reads under a condition, unless it fails or answers with nothing. -/
def attemptIf (b : Bool) (p : Parser (Option α)) : Parser (Option α) :=
  choose b (attempt p) (pure none)

/-- Takes back what a parser read, and tells its answer, which is no if it fails. -/
def lookahead (p : Parser Bool) : Parser Bool := fun s =>
  match p s with
  | .ok b _ => .ok b s
  | .error _ _ => .ok false s

/-- Goes on where a parser failed. -/
def recover (p : Parser α) : Parser (Option α) := fun s =>
  match p s with
  | .ok a t => .ok (some a) t
  | .error _ t => .ok none t

/-- Reads items until a condition holds. -/
def collectUntil (done : Parser Bool) (item : Parser α) : Nat → Parser (List α)
  | 0 => fail
  | fuel + 1 => do
    if ← done then return []
    else
      let a ← item
      let rest ← collectUntil done item fuel
      return a :: rest

/-- Reads items with commas between them until a closing mark, which is not read. A comma may stand
behind the last item. -/
def commaList (close : String) (item : Parser α) : Nat → Parser (List α)
  | 0 => fail
  | fuel + 1 => do
    if ← at? close then return []
    else
      let a ← item
      if ← at? close then return [a]
      else
        expect ","
        let rest ← commaList close item fuel
        return a :: rest

/-- Goes on reading while a step gives something new. -/
def iterate (step : α → Parser (Option α)) : Nat → α → Parser α
  | 0, _ => fail
  | fuel + 1, a => do
    match ← step a with
    | some b => iterate step fuel b
    | none => return a

/-- A node that ends with the token read last. -/
def node (kind : Kind) (lo : Nat) (parts : List Tree) : Parser Tree := do
  return .node kind ⟨lo, ← prevEnd⟩ parts

/-- Reads the next token as a leaf. -/
def leaf (kind : Kind) : Parser Tree := do
  let lo ← here
  advance
  node kind lo []

/-- Reads the next token as a leaf whose kind holds its characters. -/
def textLeaf (kind : String → Kind) : Parser Tree := do
  let t ← peek
  leaf (kind t.text)

/-- Reads a given word as a name, if it comes next and a condition holds. -/
def wordIf (b : Bool) (text : String) : Parser (Option Tree) := do
  if b && (← atWord? text) then return some (← leaf (.name text)) else return none

/-! ## Names -/

/-- Whether a word may stand for something that was bound. -/
def isName (c : Context) (text : String) : Bool :=
  !(isReservedIn c.typed text || (c.inAsync && text == "await")
    || (c.inGenerator && text == "yield"))

/-- Whether a word may be bound. Some words that cannot stand for anything can. -/
def isBindable (c : Context) (text : String) : Bool :=
  if text == "await" then c.ambient || !(c.typed || c.inAsync)
  else !isReserved text || text == "enum" || (c.typed && text == "this")

/-- Whether a token is a word for which a condition holds, or a plain one. -/
def isWordWhere (condition : String → Bool) (t : Token) : Bool :=
  match t.kind with
  | .word w plain => plain || condition w
  | _ => false

/-- Whether a token is a word that may stand for something. -/
def isNameToken (c : Context) (t : Token) : Bool := isWordWhere (isName c) t

/-- Whether a name comes next. -/
def atName? (c : Context) : Parser Bool := do return isNameToken c (← peek)

/-- Whether any word comes next. -/
def atAnyWord? : Parser Bool := do return (← peek).word?.isSome

/-- Reads a word, reserved or not. -/
def anyWord : Parser Tree := do
  match (← peek).word? with
  | some w => leaf (.name w)
  | none => fail

/-- Reads a name that stands for something. -/
def name (c : Context) : Parser Tree := do
  if ← atName? c then anyWord else fail

/-- Reads a name that is bound. -/
def boundName (c : Context) : Parser Tree := do
  let t ← peek
  flawIf (t.isWord "enum" || (c.inGenerator && t.isWord "yield"))
  if isWordWhere (isBindable c) t then anyWord else fail

/-- Reads a name that is bound by a declaration that does not bind the word `let`. -/
def declaredName (c : Context) : Parser Tree := do
  if ← atWord? "let" then fail else boundName c

/-- Reads a private name, whose number sign stands directly in front of its word. -/
def privateName : Parser Tree := do
  let lo ← here
  expect "#"
  let t ← peek
  match t.word? with
  | some w =>
    if t.span.lo == lo + 1 then
      advance
      node (.privateName w) lo []
    else fail
  | none => fail

end Parser

end Prune.Source
