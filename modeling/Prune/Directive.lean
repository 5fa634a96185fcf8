import Prune.Json.Basic
import Prune.Text.Blank
import Prune.Text.Case

/-!
# Directives

A directive stands at the front of a comment: a number sign, an optional exclamation mark, and a
name in any letter case. The names of conditional branches are fixed (`Keyword`); any other name is
the name of a switch, which a table turns on or off (`Switches`). What follows the name is the
expression of the directive, with single blanks between its words.

`Directive.parse` reads a comment, `Directive.render` writes a directive in its canonical form, and
`isDirective` decides which comments vanish from the output.
-/

namespace Prune

/-- The directives of a chain of branches. -/
inductive Keyword where
  /-- Opens a chain and its first branch. -/
  | opening
  /-- Opens a further branch under a condition of its own. -/
  | elif
  /-- Opens the branch that is taken when no other is. -/
  | otherwise
  /-- Closes the chain. -/
  | closing
deriving DecidableEq, Repr, Inhabited

/-- The keyword with a given name in lower case. -/
def Keyword.ofName? (name : String) : Option Keyword :=
  if name == "if" then some .opening
  else if name == "elif" || name == "elseif" then some .elif
  else if name == "else" then some .otherwise
  else if name == "endif" then some .closing
  else none

/-- The canonical name of a keyword. -/
def Keyword.name : Keyword → String
  | .opening => "if"
  | .elif => "elif"
  | .otherwise => "else"
  | .closing => "endif"

/-- Whether a keyword comes with a condition. -/
def Keyword.takesCondition : Keyword → Bool
  | .opening | .elif => true
  | .otherwise | .closing => false

/-- What a directive refers to. -/
inductive Directive.Kind where
  /-- A chain of branches. -/
  | branch (keyword : Keyword)
  /-- The switch with the given name in lower case. -/
  | switch (name : String)
deriving DecidableEq, Repr, Inhabited

/-- The name of a directive. -/
def Directive.Kind.name : Directive.Kind → String
  | .branch keyword => keyword.name
  | .switch name => name

/-- A directive of a comment. -/
structure Directive where
  kind : Directive.Kind
  /-- The words behind the name with single blanks between them, if there are any. -/
  expression : Option String
  /-- The line on which the comment starts. -/
  line : Nat
deriving DecidableEq, Repr, Inhabited

namespace Directive

/-- The kind of a directive with a given name in lower case. -/
def Kind.ofName (name : String) : Kind :=
  match Keyword.ofName? name with
  | some keyword => .branch keyword
  | none => .switch name

/-- The name that the first word of a comment gives: what follows a number sign and one optional
exclamation mark, if anything does. -/
def headName? : List Char → Option (List Char)
  | '#' :: '!' :: name => if name.isEmpty then none else some name
  | '#' :: name => if name.isEmpty then none else some name
  | _ => none

/-- Words with single blanks between them. -/
def joinWords (words : List (List Char)) : String :=
  String.intercalate " " (words.map String.ofList)

/-- The directive of a comment that starts on a given line, if the comment is one. -/
def parse (text : String) (line : Nat) : Option Directive :=
  match Text.words text.toList with
  | [] => none
  | head :: rest =>
    (headName? head).map fun name =>
      { kind := Kind.ofName (String.ofList (Text.lowerChars name)),
        expression := if rest.isEmpty then none else some (joinWords rest),
        line := line }

/-- The canonical form of a directive. -/
def render (d : Directive) : String :=
  match d.expression with
  | none => "#" ++ d.kind.name
  | some expression => "#" ++ d.kind.name ++ " " ++ expression

end Directive

/-- The switches that are known, sorted by name, and whether each is on. -/
abbrev Switches := Table Bool

/-- Whether the switch with a given name is on: an entry with this very name decides, otherwise the
first one whose name differs only in the case of letters of ASCII. -/
def Switches.flag? (switches : Switches) (name : String) : Option Bool :=
  match Table.get? switches name with
  | some flag => some flag
  | none => (switches.find? fun entry => Text.sameIgnoringAsciiCase entry.1 name).map (·.2)

/-- Whether a comment is a directive: one of a chain, or one whose switch is known. -/
def isDirective (text : String) (switches : Switches) : Bool :=
  match Directive.parse text 0 with
  | none => false
  | some d =>
    match d.kind with
    | .branch _ => true
    | .switch name => (switches.flag? name).isSome

end Prune
