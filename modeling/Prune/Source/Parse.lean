import Prune.Source.Grammar.Markup
import Prune.Source.Grammar.Modules

/-!
# Parsing

The rules of the grammar tied together (`rules`), and the trees of whole texts: of modules
(`parseModule`), where flaws do not count, and of scripts without types and markup (`parseScript`),
where they do. A byte order mark at the front of a text is not read, and spans are counted without it.
-/

namespace Prune.Source

open Prune.Source.Parser Grammar

/-- The rules of the grammar: each refers to the rules with less fuel. -/
def rules : Nat → Rules
  | 0 =>
    { fuel := 0
      expression := fun _ => fail
      assignment := fun _ => fail
      unary := fun _ _ => fail
      leftHand := fun _ _ => fail
      newCallee := fun _ => fail
      binding := fun _ => fail
      type := fun _ => fail
      typeOperand := fun _ => fail
      body := fun _ => fail
      statement := fun _ _ => fail
      element := fun _ _ => fail
      item := fun _ => fail
      heritage := fun _ => fail
      decorators := fun _ => fail }
  | fuel + 1 =>
    { fuel := fuel + 1
      expression := fun c => expression (rules fuel) c
      assignment := fun c => assignment (rules fuel) c
      unary := fun c arrow => unary (rules fuel) c arrow
      leftHand := fun c arrow => leftHand (rules fuel) c arrow
      newCallee := fun c => newCallee (rules fuel) c
      binding := fun c => binding (rules fuel) c
      type := fun c => type (rules fuel) c
      typeOperand := fun c => typeOperand (rules fuel) c
      body := fun c => body (rules fuel) c
      statement := fun c declares => statement (rules fuel) c declares
      element := fun c place => element (rules fuel) c place
      item := fun c => item (rules fuel) c
      heritage := fun c => heritage (rules fuel) c
      decorators := fun c => decorators (rules fuel) c }

/-- The fuel for a text: each rule that starts at a token calls fewer than eight others that start
at the same token. -/
def fuelFor (text : List Char) : Nat := 8 * text.length + 64

/-- The state before the text of a module or a script. -/
def Parser.start (modular : Bool) (text : List Char) : Parser.State :=
  { tok := Token.readFirst modular text, prevKind := .stop, prevEnd := 0, prevRest := text,
    comments := [], flawed := false, modular := modular }

/-- Reads items up to the end of the text, and the comments before it. -/
def file (fuel : Nat) (item : Parser Tree) : Parser Parsed := do
  let items ← collectUntil atStop? item fuel
  advance
  let tree ← node .file 0 [.series .block items]
  return ⟨tree, (← get).comments.reverse⟩

/-- The module that a text spells out, with or without markup; none if it spells out none. -/
def parseModule (markup : Bool) (text : String) : Option Parsed :=
  let cs := Text.withoutMark text.toList
  let fuel := fuelFor cs
  let c : Context := { typed := true, markup := markup }
  match file fuel ((rules fuel).item c) (Parser.start true cs) with
  | .ok parsed _ => some parsed
  | .error _ _ => none

/-- The statements of the script that a text spells out; none if it spells out none or is flawed. -/
def parseScript (text : String) : Option (List Tree) :=
  let cs := Text.withoutMark text.toList
  let fuel := fuelFor cs
  let c : Context := { typed := false, markup := false }
  match file fuel ((rules fuel).statement c true) (Parser.start false cs) with
  | .ok parsed s => if s.flawed then none else some (parsed.tree.parts.flatMap Tree.parts)
  | .error _ _ => none

end Prune.Source
