import Prune.Source.Grammar.Types
import Prune.Text.Blank

/-!
# Markup

Elements and fragments (`element`) with their attributes and children. The text between children
belongs to the tree: it is read from the end of the tag or the brace before it, whatever tokens it
would be elsewhere.
-/

namespace Prune.Source.Grammar

open Prune.Source.Parser

variable (r : Rules) (c : Context)

/-- Reads a name of an element or an attribute that has no point and no colon in it. -/
def simpleName : Parser String := do
  let t ← peek
  match t.word? with
  | some w =>
    let (tail, rest, size) := markupNameTail t.rest
    let text := w ++ String.ofList tail
    take { t with
      kind := .word text false, rest := rest, span := ⟨t.span.lo, t.span.hi + size⟩ }
    return text
  | none => fail

/-- A name that may have one colon in it. -/
def spacedName : Parser String := do
  let first ← simpleName
  if ← eat ":" then
    let word ← simpleName
    return first ++ ":" ++ word
  else return first

/-- Reads a further word of the name of an element behind a point. -/
def nameStep (text : String) : Parser (Option String) := do
  if ← eat "." then
    let word ← simpleName
    return some (text ++ "." ++ word)
  else return none

/-- The name of an element, with its text. -/
def elementName : Parser String := do
  let first ← spacedName
  iterate nameStep r.fuel first

/-- The mark of one character at the front of a text. -/
def markAt (pos : Nat) (cs : List Char) : Token :=
  Token.cut { (default : Token) with front := cs, rest := cs.tail, span := ⟨pos, pos + 1⟩ }

/-- The state behind the text of markup that starts where the token read last ends. The mark of a
brace or a tag comes next, if the text ends. -/
def behindText (s : Parser.State) : Parser.State :=
  let rest := (markupText s.prevRest).1
  let hi := s.prevEnd + (markupText s.prevRest).2
  { s with tok := markAt hi rest, prevKind := .stop, prevEnd := hi, prevRest := rest }

/-- The characters of the text of markup up to the next brace or tag, without blanks. -/
def textContent (cs : List Char) : String :=
  let size := cs.length - (markupText cs).1.length
  String.ofList ((cs.take size).filter fun c => !Text.isBlank c)

/-- Reads the text of markup up to the next brace or tag, whose mark comes next. -/
def textNode : Parser (List Tree) := do
  let s ← get
  let t := behindText s
  failIf t.prevRest.isEmpty
  set t
  let kind : Kind := .markup (.text (textContent s.prevRest))
  return if t.prevEnd == s.prevEnd then [] else [.node kind ⟨s.prevEnd, t.prevEnd⟩ []]

/-- An expression in braces among children. -/
def childContainer : Parser Tree := do
  let lo ← here
  let c := { c with inOperator := true, inBranch := false, beforeColon := false }
  expect openBrace
  if ← eat closeBrace then node (.markup .emptyContainer) lo []
  else
    let spread ← eat "..."
    let form : Markup := if spread then .spreadChild else .container
    let e ← r.expression c
    expect closeBrace
    node (.markup form) lo [e]

/-- The children of an element up to its end tag, which is not read. -/
def markupChildren : Nat → Parser (List Tree)
  | 0 => fail
  | fuel + 1 => do
    let text ← textNode
    if ← at? openBrace then
      let child ← childContainer r c
      let rest ← markupChildren fuel
      return text ++ child :: rest
    else if (← peekSecond).isPunct "/" then return text
    else
      let child ← r.element c .child
      let rest ← markupChildren fuel
      return text ++ child :: rest

/-- The value of an attribute. -/
def attributeValue : Parser Tree := do
  let t ← peek
  let lo := t.span.lo
  match t.front with
  | d :: cs =>
    if d == '"' || d.toNat == 0x27 then
      match markupString d cs with
      | none => fail
      | some (rest, size) =>
        take { t with kind := .string none, rest := rest, span := ⟨lo, lo + 1 + size⟩ }
        node (.string none) lo []
    else if d.toNat == 0x7B then
      let value ← childContainer r c
      match value.kind? with
      | some (.markup .emptyContainer) => fail
      | _ => return value
    else if d == '<' then r.element c .attribute
    else fail
  | [] => fail

/-- An attribute. The braces around a spread expression do not belong to it. -/
def markupAttribute : Parser Tree := do
  let lo ← here
  if ← eat openBrace then
    let start ← here
    expect "..."
    let e ← r.assignment { c with inOperator := true, inBranch := false, beforeColon := false }
    let spread ← node (.markup .spreadAttribute) start [e]
    expect closeBrace
    return spread
  else
    let text ← spacedName
    if ← eat "=" then
      let value ← attributeValue r c
      node (.markup (.attribute text)) lo [value]
    else node (.markup (.attribute text)) lo []

/-- Reads the tag that ends an element with a given name, or a fragment. -/
def endTag (text : String) : Parser Tree := do
  let lo ← here
  expect "<"
  failIf ((← prevEnd) != (← here))
  expect "/"
  let closing ← choose (← at? ">") (pure "") (elementName r)
  failIf (closing != text)
  expect ">"
  node (.markup .endTag) lo []

/-- The children and the end tag of an element whose start tag was read. -/
def elementTail (kind : Kind) (lo : Nat) (text : String) (tag : Tree) : Parser Tree := do
  let children ← markupChildren r c r.fuel
  let closing ← endTag r text
  node kind lo [tag, .series .children children, closing]

/-- An element or a fragment. -/
def element (place : Place) : Parser Tree := do
  let lo ← here
  expect "<"
  if ← eat ">" then
    let tag ← node (.markup (.tag "")) lo []
    elementTail r c (.fragment place) lo "" tag
  else
    let text ← elementName r
    let types ← listIf (c.typed && (← at? "<")) (typeArguments r c false)
    let attributes ← collectUntil (atAny? [">", "/"]) (markupAttribute r c) r.fuel
    let selfClosing ← eat "/"
    expect ">"
    let tag ← node (.markup (.tag text)) lo (types ++ [.series .block attributes])
    if selfClosing then node (.element place) lo [tag, .series .children []]
    else elementTail r c (.element place) lo text tag

end Prune.Source.Grammar
