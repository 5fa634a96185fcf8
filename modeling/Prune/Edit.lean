import Prune.Sort
import Prune.Text.Blank
import Prune.Text.Bytes

/-!
# Edits of a text

An edit replaces the bytes of a text between two offsets (`Edit`). `Edit.applyAll` carries out a
list of edits: those that overlap become one, and so do deletions that touch. A deletion takes the
whole of its lines with it when nothing but blanks is left on them, and the blanks before it when
it ends a line (`Edit.widen`).

A text cannot be cut inside a character. Whether edits cut a text so that they can be carried out is
`Edit.areSound`.
-/

namespace Prune

open Text (byteLength dropBytes isBoundary takeBytes slice)

/-- The bytes from `lo` on and before `hi`, and what takes their place. -/
structure Edit where
  lo : Nat
  hi : Nat
  replacement : String
deriving DecidableEq, Repr, Inhabited

namespace Edit

/-- Whether an edit puts nothing in the place of what it takes out. -/
def isDeletion (e : Edit) : Bool := e.replacement.isEmpty

/-- Whether an edit comes before another: by where it starts, and the longer one first. -/
def precedes (a b : Edit) : Bool :=
  a.lo < b.lo || (a.lo == b.lo && b.hi ≤ a.hi)

/-- Whether an edit that starts behind the start of another becomes one with it. -/
def joins (a b : Edit) : Bool :=
  b.lo < a.hi || (b.lo == a.hi && a.isDeletion && b.isDeletion)

/-- Joins an edit with those behind it that overlap or touch it. -/
def mergeFrom (last : Edit) : List Edit → List Edit
  | [] => [last]
  | e :: es =>
    if last.joins e then mergeFrom { last with hi := max last.hi e.hi } es
    else last :: mergeFrom e es

/-- Joins the edits of a list, in the order of where they start. -/
def merge : List Edit → List Edit
  | [] => []
  | e :: es => mergeFrom e es

/-- The part of the line before a byte. -/
def lineBefore (text : List Char) (pos : Nat) : List Char :=
  ((takeBytes pos text).reverse.takeWhile (· != '\n')).reverse

/-- The part of the line behind a byte. -/
def lineAfter (text : List Char) (pos : Nat) : List Char :=
  (dropBytes pos text).takeWhile (· != '\n')

/-- Widens a deletion: to whole lines if only blanks stand beside it, and over the blanks before it
if only blanks stand behind it. -/
def widen (text : List Char) (e : Edit) : Edit :=
  if e.isDeletion then
    let before := lineBefore text e.lo
    let after := lineAfter text e.hi
    if after.all Text.isBlank then
      if before.all Text.isBlank then
        { e with
          lo := e.lo - byteLength before,
          hi := min (e.hi + byteLength after + 1) (byteLength text) }
      else { e with lo := e.lo - byteLength before + byteLength (Text.trimEnd before) }
    else e
  else e

/-- Carries out edits that were merged, from a byte on. -/
def applyFrom (text : List Char) (cursor : Nat) : List Edit → List Char
  | [] => dropBytes cursor text
  | e :: es =>
    let w := e.widen text
    slice cursor (max w.lo cursor) text ++ w.replacement.toList
      ++ applyFrom text (max cursor w.hi) es

/-- Carries out edits, in whatever order they are given. -/
def applyAll (text : String) (edits : List Edit) : String :=
  String.ofList (applyFrom text.toList 0 (merge (sortBy precedes edits)))

/-- Whether a text can be cut as carrying out edits that were merged cuts it, from a byte on: where
a deletion starts and ends before it is widened, and where each piece that stays does. -/
def areSoundFrom (text : List Char) (cursor : Nat) : List Edit → Bool
  | [] => isBoundary text cursor
  | e :: es =>
    let w := e.widen text
    (!e.isDeletion || isBoundary text e.lo && isBoundary text e.hi)
      && isBoundary text cursor && isBoundary text (max w.lo cursor)
      && areSoundFrom text (max cursor w.hi) es

/-- Whether a text can be cut as carrying out edits cuts it. -/
def areSound (text : String) (edits : List Edit) : Bool :=
  areSoundFrom text.toList 0 (merge (sortBy precedes edits))

end Edit

end Prune
