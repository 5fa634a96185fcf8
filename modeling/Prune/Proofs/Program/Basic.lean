import Mathlib.Data.List.Basic
import Prune.Process
import Prune.Proofs.Elision.Arrays

/-!
# Programs laid out in lines

A source text each of whose statements stands on lines of its own, as do its comments (`Program`).
Some statements are compound: they stand around others, which are on lines of their own again.  Some
stand around the members of a list, with blanks and comments between them (`Cells`), and members and
comments may stand on any lines between the first and the last of the statement.  A program knows
the trees of its statements (`Program.trees`) and its comments (`Program.comments`), both of which
move with the place where it stands, and the ranges of lines that its directives ask to delete
(`Program.ranges`).

What is left of it makes sense only if no range takes a part of a statement away other than members
of lists (`Program.Whole`), and no list loses a hole (`Program.KeepsHoles`).
-/

namespace Prune

open Source Text

/-! ### Trees that move -/

namespace Source

/-- A span behind `n` more bytes. -/
def Span.move (n : Nat) (s : Span) : Span :=
  ⟨n + s.lo, n + s.hi⟩

/-- A comment behind `n` more bytes. -/
def Comment.move (n : Nat) (c : Comment) : Comment :=
  ⟨c.text, c.span.move n⟩

namespace Tree

mutual

/-- A tree behind `n` more bytes. -/
def move (n : Nat) : Tree → Tree
  | .node kind span parts => .node kind (span.move n) (moveAll n parts)
  | .series rule items => .series rule (moveAll n items)

/-- Trees behind `n` more bytes. -/
def moveAll (n : Nat) : List Tree → List Tree
  | [] => []
  | t :: ts => t.move n :: moveAll n ts

end

/-- Whether a tree is a node. -/
def isNode (t : Tree) : Bool :=
  t.kind?.isSome

mutual

/-- Whether all nodes of a tree lie between two bytes, and the members of series are nodes. -/
def within (lo hi : Nat) : Tree → Bool
  | .node _ span parts =>
    lo ≤ span.lo && span.lo ≤ hi && span.hi ≤ hi && allWithin lo hi parts
  | .series _ items => items.all isNode && allWithin lo hi items

/-- Whether all nodes of some trees lie between two bytes. -/
def allWithin (lo hi : Nat) : List Tree → Bool
  | [] => true
  | t :: ts => t.within lo hi && allWithin lo hi ts

end

end Tree

end Source

/-! ### Programs -/

/-- The number of line feeds in a text. -/
def feeds (cs : List Char) : Nat :=
  cs.count '\n'

/-- Blanks in front of what stands on a line. -/
def Indent (cs : List Char) : Prop :=
  ∀ c ∈ cs, c = ' ' ∨ c = '\t'

instance (cs : List Char) : Decidable (Indent cs) :=
  inferInstanceAs (Decidable (∀ c ∈ cs, _))

/-- A comment with its marks, and the text between them. -/
structure Remark where
  code : List Char
  text : String

/-- A statement, with its tree and its comments as they are when it stands at the first byte. -/
structure Phrase where
  code : List Char
  tree : Tree
  comments : List Comment

/-- The trees around the statements in a compound one, or around the members of a list.  Those
before these are placed from the front of the whole, and those behind them from its back.  -/
inductive Around where
  /-- The place of the statements or the members. -/
  | hole
  | node (kind : Source.Kind) (lo hi : Nat) (before : List Tree) (inner : Around)
      (after : List Tree)
  | series (rule : Rule) (before : List Tree) (inner : Around) (after : List Tree)

/-- Whether the outermost of the trees around statements is a node. -/
def Around.isNode : Around → Bool
  | node _ _ _ _ _ _ => true
  | _ => false

/-- Whether the nodes around something start in a front and end in a back of some bytes, while all
others lie in the one or the other. -/
def Around.sound (front back : Nat) : Around → Bool
  | hole => true
  | node kind lo hi before inner after =>
    kind != .hole && kind != .markup .emptyContainer && lo ≤ front && 0 < hi && hi ≤ back
      && Tree.allWithin 0 front before && inner.sound front back && Tree.allWithin 0 back after
  | series _ before inner after =>
    inner.isNode && before.all Tree.isNode && after.all Tree.isNode
      && Tree.allWithin 0 front before && inner.sound front back && Tree.allWithin 0 back after

/-- The tree of a statement around a series, given where its front and its back stand. -/
def Around.fill (front back : Nat) (rule : Rule) (items : List Tree) : Around → Tree
  | hole => .series rule items
  | node kind lo hi before inner after =>
    .node kind ⟨front + lo, back + hi⟩
      (Tree.moveAll front before ++ inner.fill front back rule items :: Tree.moveAll back after)
  | series outer before inner after =>
    .series outer
      (Tree.moveAll front before ++ inner.fill front back rule items :: Tree.moveAll back after)

/-! ### Lists -/

/-- A member of a list that is a single token. -/
structure Leaf where
  code : List Char
  kind : Source.Kind

/-- The tree of a member that stands at a byte. -/
def Leaf.tree (pos : Nat) (l : Leaf) : Tree :=
  .node l.kind ⟨pos, pos + byteLength l.code⟩ []

/-- A member that stands at a byte, as the item of a row. -/
def Leaf.item (pos : Nat) (l : Leaf) : Item :=
  ⟨l.tree pos, l.code⟩

/-- A place in a list: a member or none, with what stands around it. -/
structure Cell where
  lead : List Filler
  leaf? : Option Leaf
  trail : List Filler

namespace Cell

/-- How a place in a list is written down. -/
def text (c : Cell) : List Char :=
  fillersText c.lead ++ ((c.leaf?.map Leaf.code).getD [] ++ fillersText c.trail)

/-- The slot that a place in a list is when it starts at a byte. -/
def slot (pos : Nat) (c : Cell) : Slot :=
  ⟨c.lead, c.leaf?.map (Leaf.item (pos + byteLength (fillersText c.lead))), c.trail⟩

/-- The tree of what stands in front of a comma: a member, or the hole that is there if there is
none. -/
def tree (pos : Nat) (c : Cell) : Tree :=
  match c.leaf? with
  | none => .node .hole ⟨pos + byteLength c.text, pos + byteLength c.text⟩ []
  | some l => l.tree (pos + byteLength (fillersText c.lead))

end Cell

/-- The places of a list, with a comma between each two. -/
inductive Cells where
  | last (c : Cell)
  | cons (c : Cell) (rest : Cells)

namespace Cells

/-- How the places of a list are written down. -/
def text : Cells → List Char
  | last c => c.text
  | cons c rest => c.text ++ ',' :: rest.text

/-- The row that the places of a list are when the first starts at a byte. -/
def row (pos : Nat) : Cells → Row
  | last c => .last (c.slot pos)
  | cons c rest => .cons (c.slot pos) ',' (rest.row (pos + byteLength c.text + 1))

/-- The members and holes of a list: behind the last comma stands no hole. -/
def trees (pos : Nat) : Cells → List Tree
  | last c => ((c.slot pos).item?.map Item.tree).toList
  | cons c rest => c.tree pos :: rest.trees (pos + byteLength c.text + 1)

/-- The comments in a list, the first place of which starts at a byte. -/
def comments (pos : Nat) (cells : Cells) : List Comment :=
  (cells.row pos).comments pos

/-- The comments in a list, each with the line on which it starts. -/
def remarks (line : Nat) (cells : Cells) : List (String × Nat) :=
  (cells.comments 0).map fun c => (c.text, line + feeds (takeBytes c.span.lo cells.text))

/-- The members of a list. -/
def leaves : Cells → List Leaf
  | last c => c.leaf?.toList
  | cons c rest => c.leaf?.toList ++ rest.leaves

/-- Whether a member stands in front of each comma. -/
def Full : Cells → Prop
  | last _ => True
  | cons c rest => c.leaf?.isSome = true ∧ rest.Full

end Cells

/-! ### Statements around others -/

/-- A statement around others or around a list: what stands before these and behind them, and the
trees around them. -/
structure Compound where
  front : List Char
  back : List Char
  around : Around

/-- The characters of a statement around a list. -/
def Compound.code (f : Compound) (cells : Cells) : List Char :=
  f.front ++ (cells.text ++ f.back)

/-- A text laid out in lines.  Blanks may stand in front of what is on a line, but not behind it. -/
inductive Program where
  | nil
  | blank (indent : List Char) (next : Program)
  | remark (indent : List Char) (r : Remark) (next : Program)
  | phrase (indent : List Char) (s : Phrase) (next : Program)
  /-- A compound statement, with what it is around, and the blanks in front of its back. -/
  | compound (indent : List Char) (f : Compound) (body : Program) (foot : List Char)
      (next : Program)
  /-- A statement around a list. -/
  | listing (indent : List Char) (f : Compound) (cells : Cells) (next : Program)

namespace Program

/-- The characters of a program. -/
def text : Program → List Char
  | nil => []
  | blank indent next => indent ++ '\n' :: next.text
  | remark indent r next => indent ++ (r.code ++ '\n' :: next.text)
  | phrase indent s next => indent ++ (s.code ++ '\n' :: next.text)
  | compound indent f body foot next =>
    indent ++ (f.front ++ '\n' :: (body.text ++ (foot ++ (f.back ++ '\n' :: next.text))))
  | listing indent f cells next => indent ++ (f.code cells ++ '\n' :: next.text)

/-- A program as a source text. -/
def source (p : Program) : String :=
  String.ofList p.text

/-- The byte behind the line feed that ends a line, given the one where the line starts. -/
def behind (pos : Nat) (indent code : List Char) : Nat :=
  pos + byteLength indent + byteLength code + 1

/-- The statements of a program that stands at a byte. -/
def trees (pos : Nat) : Program → List Tree
  | nil => []
  | blank indent next => next.trees (behind pos indent [])
  | remark indent r next => next.trees (behind pos indent r.code)
  | phrase indent s next =>
    s.tree.move (pos + byteLength indent) :: next.trees (behind pos indent s.code)
  | compound indent f body foot next =>
    let inside := behind pos indent f.front
    let below := inside + byteLength body.text
    f.around.fill (pos + byteLength indent) (below + byteLength foot) .block (body.trees inside)
      :: next.trees (behind below foot f.back)
  | listing indent f cells next =>
    let inside := pos + byteLength indent + byteLength f.front
    f.around.fill (pos + byteLength indent) (inside + byteLength cells.text) .list
        (cells.trees inside)
      :: next.trees (behind pos indent (f.code cells))

/-- The comments of a program that stands at a byte. -/
def comments (pos : Nat) : Program → List Comment
  | nil => []
  | blank indent next => next.comments (behind pos indent [])
  | remark indent r next =>
    ⟨r.text, ⟨pos + byteLength indent, pos + byteLength indent + byteLength r.code⟩⟩
      :: next.comments (behind pos indent r.code)
  | phrase indent s next =>
    s.comments.map (Comment.move (pos + byteLength indent))
      ++ next.comments (behind pos indent s.code)
  | compound indent f body foot next =>
    let inside := behind pos indent f.front
    let below := inside + byteLength body.text
    body.comments inside ++ next.comments (behind below foot f.back)
  | listing indent f cells next =>
    cells.comments (pos + byteLength indent + byteLength f.front)
      ++ next.comments (behind pos indent (f.code cells))

/-! ### What goes of a program -/

/-- The comments between statements and in lists, each with the line on which it starts. -/
def remarks (line : Nat) : Program → List (String × Nat)
  | nil => []
  | blank _ next => next.remarks (line + 1)
  | remark _ r next => (r.text, line) :: next.remarks (line + feeds r.code + 1)
  | phrase _ s next => next.remarks (line + feeds s.code + 1)
  | compound _ f body _ next =>
    let inside := line + feeds f.front + 1
    body.remarks inside ++ next.remarks (inside + feeds body.text + feeds f.back + 1)
  | listing _ f cells next =>
    let inside := line + feeds f.front
    cells.remarks inside ++ next.remarks (inside + feeds cells.text + feeds f.back + 1)

/-- The ranges of lines to delete that the directives of a program give. -/
def ranges (p : Program) (o : Options) : List LineRange :=
  (o.resolver.resolve (collectDirectives (p.remarks 1))).ranges

/-- Whether ranges of lines do not cut through a program: each that meets a statement, or the front
or the back of one around others or around a list, has all of it. -/
def Whole (ranges : List LineRange) (line : Nat) : Program → Prop
  | nil => True
  | blank _ next => next.Whole ranges (line + 1)
  | remark _ r next => next.Whole ranges (line + feeds r.code + 1)
  | phrase _ s next =>
    let last := line + feeds s.code
    (∀ r ∈ ranges, r.first ≤ last → line ≤ r.last → r.contains line last = true) ∧
      next.Whole ranges (last + 1)
  | compound _ f body _ next =>
    let inside := line + feeds f.front + 1
    let below := inside + feeds body.text
    let last := below + feeds f.back
    (∀ r ∈ ranges, r.first < inside ∧ line ≤ r.last ∨ r.first ≤ last ∧ below ≤ r.last →
        r.contains line last = true) ∧
      body.Whole ranges inside ∧ next.Whole ranges (last + 1)
  | listing _ f cells next =>
    let inside := line + feeds f.front
    let below := inside + feeds cells.text
    let last := below + feeds f.back
    (∀ r ∈ ranges, r.first ≤ inside ∧ line ≤ r.last ∨ r.first ≤ last ∧ below ≤ r.last →
        r.contains line last = true) ∧
      next.Whole ranges (last + 1)

/-- Whether ranges cut through a program can be found out. -/
instance decidableWhole (ranges : List LineRange) :
    (line : Nat) → (p : Program) → Decidable (p.Whole ranges line)
  | _, nil => inferInstanceAs (Decidable True)
  | line, blank _ next => decidableWhole ranges (line + 1) next
  | line, remark _ r next => decidableWhole ranges (line + feeds r.code + 1) next
  | line, phrase _ s next =>
    have := decidableWhole ranges (line + feeds s.code + 1) next
    inferInstanceAs (Decidable (_ ∧ _))
  | line, compound _ f body _ next =>
    have := decidableWhole ranges (line + feeds f.front + 1) body
    have := decidableWhole ranges
      (line + feeds f.front + 1 + feeds body.text + feeds f.back + 1) next
    inferInstanceAs (Decidable (_ ∧ _ ∧ _))
  | line, listing _ f cells next =>
    have := decidableWhole ranges (line + feeds f.front + feeds cells.text + feeds f.back + 1) next
    inferInstanceAs (Decidable (_ ∧ _))

/-- Whether no list of a program has holes. -/
def Full : Program → Prop
  | nil => True
  | blank _ next => next.Full
  | remark _ _ next => next.Full
  | phrase _ _ next => next.Full
  | compound _ _ body _ next => body.Full ∧ next.Full
  | listing _ _ cells next => cells.Full ∧ next.Full

/-- Whether no list of a program that stands at a byte loses a hole when members of it go. -/
def KeepsHoles (e : Elision) (pos : Nat) : Program → Prop
  | nil => True
  | blank indent next => next.KeepsHoles e (behind pos indent [])
  | remark indent r next => next.KeepsHoles e (behind pos indent r.code)
  | phrase indent s next => next.KeepsHoles e (behind pos indent s.code)
  | compound indent f body foot next =>
    let inside := behind pos indent f.front
    let below := inside + byteLength body.text
    body.KeepsHoles e inside ∧ next.KeepsHoles e (behind below foot f.back)
  | listing indent f cells next =>
    let inside := pos + byteLength indent + byteLength f.front
    ¬e.LosesHole (Elision.elements (cells.row inside).places) ∧
      next.KeepsHoles e (behind pos indent (f.code cells))

end Program

end Prune
