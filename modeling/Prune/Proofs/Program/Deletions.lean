import Mathlib.Data.List.Basic
import Prune.Proofs.Elision.Pruning
import Prune.Proofs.Program.Reading

/-!
# What goes of a program

What is taken out of a program in which no range cuts through a statement (`Program.taken`): the
statements in ranges go as a whole, and the members of lists in ranges, with separators.  Of a
statement around others that stays, all trees around these stay (`Around.Kept.visit_fill`,
`Around.Kept.prune_fill`), so that what goes of it goes of what it is around.  What is taken out of
a program is therefore told line by line, and stands in it (`Program.Sits.takesWithin_of_mem_taken`).
-/

namespace Prune

open Text Source

/-! ### Trees that move -/

namespace Source.Tree

variable {P : Span → Prop} {n lo hi : Nat} {t : Tree} {ts : List Tree}

theorem span_move (h : t.isNode = true) :
  (t.move n).span = t.span.move n
  := by
  cases t with
  | node kind s parts => rfl
  | series rule items => simp [isNode, kind?] at h

theorem moveAll_eq (ts : List Tree) :
  moveAll n ts = ts.map (move n)
  := by
  induction ts with
  | nil => rfl
  | cons t ts ih => rw [moveAll, ih, List.map_cons]

mutual

theorem shape_move (n : Nat) (t : Tree) :
  (t.move n).shape = t.shape
  := by
  cases t with
  | node kind span parts => rw [move, shape, shapes_move n parts, shape]
  | series rule items => rw [move, shape, shapes_move n items, shape]

theorem shapes_move (n : Nat) (ts : List Tree) :
  shapes (moveAll n ts) = shapes ts
  := by
  cases ts with
  | nil => rfl
  | cons t ts => rw [moveAll, shapes, shape_move n t, shapes_move n ts, shapes]

end

theorem span_of_within (h : t.within lo hi = true) (ht : t.isNode = true) :
  lo ≤ t.span.lo ∧ t.span.lo ≤ hi ∧ t.span.hi ≤ hi
  := by
  cases t with
  | node kind span parts =>
      simp only [within, Bool.and_eq_true, decide_eq_true_eq] at h
      exact ⟨h.1.1.1, h.1.1.2, h.1.2⟩
  | series rule items => simp [isNode, kind?] at ht

theorem within_of_mem (h : allWithin lo hi ts = true) (ht : t ∈ ts) :
  t.within lo hi = true
  := by
  induction ts with
  | nil => simp at ht
  | cons s ts ih =>
      rw [allWithin, Bool.and_eq_true] at h
      obtain rfl | ht := List.mem_cons.mp ht
      · exact h.1
      · exact ih h.2 ht

/-- What is true of the spans between two bytes is true of the nodes between them. -/
theorem forall_span_moveAll (h : allWithin lo hi ts = true) (hnodes : ts.all isNode = true)
    (hP : ∀ s : Span, lo ≤ s.lo → s.lo ≤ hi → s.hi ≤ hi → P (s.move n)) :
  ∀ t ∈ moveAll n ts, P t.span
  := by
  intro t ht
  rw [moveAll_eq] at ht
  obtain ⟨s, hs, rfl⟩ := List.mem_map.mp ht
  have hnode := List.all_eq_true.mp hnodes s hs
  obtain ⟨hlo, hle, hhi⟩ := span_of_within (within_of_mem h hs) hnode
  rw [span_move hnode]
  exact hP _ hlo hle hhi

mutual

theorem each_move (hP : ∀ s : Span, lo ≤ s.lo → s.lo ≤ hi → s.hi ≤ hi → P (s.move n)) (t : Tree)
    (h : t.within lo hi = true) :
  (t.move n).Each P
  := by
  cases t with
  | node kind span parts =>
      simp only [within, Bool.and_eq_true, decide_eq_true_eq] at h
      obtain ⟨⟨⟨hlo, hle⟩, hhi⟩, hparts⟩ := h
      exact ⟨hP span hlo hle hhi, allEach_moveAll hP parts hparts⟩
  | series rule items =>
      rw [within, Bool.and_eq_true] at h
      exact ⟨forall_span_moveAll h.2 h.1 hP, allEach_moveAll hP items h.2⟩

theorem allEach_moveAll (hP : ∀ s : Span, lo ≤ s.lo → s.lo ≤ hi → s.hi ≤ hi → P (s.move n))
    (ts : List Tree) (h : allWithin lo hi ts = true) :
  AllEach P (moveAll n ts)
  := by
  cases ts with
  | nil => trivial
  | cons t ts =>
      rw [allWithin, Bool.and_eq_true] at h
      exact ⟨each_move hP t h.1, allEach_moveAll hP ts h.2⟩

end

end Source.Tree

/-! ### Trees around others -/

namespace Around

open Elision

variable {e : Elision} {front back n m : Nat} {around : Around} {rule : Rule} {items : List Tree}

/-- Whether what stands in the front and in the back of a compound statement stays, and what reaches
from the one to the other, given where they stand and how many bytes they have. -/
structure Kept (e : Elision) (front back n m : Nat) : Prop where
  stays_front (s : Span) (hlo : s.lo ≤ n) (hhi : s.hi ≤ n) : e.Stays (s.move front)
  stays_back (s : Span) (hlo : s.lo ≤ m) (hhi : s.hi ≤ m) : e.Stays (s.move back)
  across (lo hi : Nat) (hlo : lo ≤ n) (hpos : 0 < hi) (hhi : hi ≤ m) :
    e.excluded ⟨front + lo, back + hi⟩ = false

theorem sound_node {kind : Source.Kind} {lo hi : Nat} {before after : List Tree}
    (h : (node kind lo hi before around after).sound n m = true) :
  (kind ≠ .hole ∧ kind ≠ .markup .emptyContainer) ∧ (lo ≤ n ∧ 0 < hi ∧ hi ≤ m) ∧
    Tree.allWithin 0 n before = true ∧ around.sound n m = true ∧ Tree.allWithin 0 m after = true
  := by
  simpa [sound, and_assoc] using h

theorem sound_series {outer : Rule} {before after : List Tree}
    (h : (series outer before around after).sound n m = true) :
  around.isNode = true ∧ (before.all Tree.isNode = true ∧ after.all Tree.isNode = true) ∧
    Tree.allWithin 0 n before = true ∧ around.sound n m = true ∧ Tree.allWithin 0 m after = true
  := by
  simpa [sound, and_assoc] using h

namespace Kept

theorem allEach_front (h : Kept e front back n m) (ts : List Tree)
    (hts : Tree.allWithin 0 n ts = true) :
  Tree.AllEach e.Stays (Tree.moveAll front ts)
  := Tree.allEach_moveAll (fun s _ hlo hhi => h.stays_front s hlo hhi) ts hts

theorem allEach_back (h : Kept e front back n m) (ts : List Tree)
    (hts : Tree.allWithin 0 m ts = true) :
  Tree.AllEach e.Stays (Tree.moveAll back ts)
  := Tree.allEach_moveAll (fun s _ hlo hhi => h.stays_back s hlo hhi) ts hts

/-- The outermost tree of a compound statement is a node that stays. -/
theorem excluded_fill (h : Kept e front back n m) (hsound : around.sound n m = true)
    (hnode : around.isNode = true) (rule : Rule) (items : List Tree) :
  e.excluded (around.fill front back rule items).span = false ∧
    isHole (around.fill front back rule items) = false ∧
    isEmptyContainer (around.fill front back rule items) = false
  := by
  cases around with
  | node kind lo hi before inner after =>
      obtain ⟨⟨hhole, hcontainer⟩, ⟨hlo, hpos, hhi⟩, -⟩ := sound_node hsound
      refine ⟨h.across lo hi hlo hpos hhi, ?_, ?_⟩
      · simpa [isHole, fill, Tree.kind?] using hhole
      · simpa [isEmptyContainer, fill, Tree.kind?] using hcontainer
  | hole | series => simp [isNode] at hnode

/-- No tag of an element goes that stands around others. -/
theorem straddles_fill (h : Kept e front back n m) {before after : List Tree}
    (hbefore : Tree.AllEach e.Stays before) (hafter : Tree.AllEach e.Stays after)
    (hsound : around.sound n m = true) (rule : Rule) (items : List Tree) :
  e.straddles (before ++ around.fill front back rule items :: after) = false
  := by
  have hbefore := straddles_eq_false hbefore
  have hafter := straddles_eq_false hafter
  rw [straddles] at *
  rw [List.any_append, List.any_cons, hbefore, hafter]
  cases around with
  | node kind lo hi before inner after => simp [h.excluded_fill hsound rfl]
  | hole | series => simp [fill, isTag, Tree.kind?]

/-- What goes of a compound statement whose front and back stay is what goes of the series in it. -/
theorem visit_fill (h : Kept e front back n m) (hsound : around.sound n m = true)
    (replacement : String) (rule : Rule) (items : List Tree) :
  e.visit replacement (around.fill front back rule items) = e.visit "" (.series rule items)
  := by
  generalize hfound : e.visit "" (.series rule items) = found
  induction around generalizing replacement with
  | hole => cases rule <;> rw [fill, ← hfound, visit, visit]
  | node kind lo hi before inner after ih =>
      obtain ⟨-, ⟨hlo, hpos, hhi⟩, hbefore, hinner, hafter⟩ := sound_node hsound
      have hbefore := h.allEach_front before hbefore
      have hafter := h.allEach_back after hafter
      have hexcluded := h.across lo hi hlo hpos hhi
      have hstraddles := h.straddles_fill hbefore hafter hinner rule items
      have hall : e.visitAll (Tree.moveAll front before
          ++ inner.fill front back rule items :: Tree.moveAll back after) = found := by
        rw [(visitLists_append _ _ hbefore).1, visitAll, ih hinner,
          ← List.append_nil (Tree.moveAll back after), (visitLists_append _ _ hafter).1, visitAll,
          append_none]
      rw [fill]
      cases kind with
      | element place => cases place <;> simp [visit, hall, hexcluded, hstraddles]
      | fragment place => cases place <;> simp [visit, hall, hexcluded]
      | _ => simp [visit, hall]
  | series outer before inner after ih =>
      obtain ⟨hnode, ⟨hbefore', hafter'⟩, hbefore, hinner, hafter⟩ := sound_series hsound
      obtain ⟨hexcluded, hhole, hcontainer⟩ := h.excluded_fill hinner hnode rule items
      have hbefore' := Tree.forall_span_moveAll hbefore hbefore' fun s _ hlo hhi =>
        h.stays_front s hlo hhi
      have hafter' := Tree.forall_span_moveAll hafter hafter' fun s _ hlo hhi =>
        h.stays_back s hlo hhi
      obtain ⟨hblock, hlone, hseparated, hchildren⟩ :=
        (visitLists_append _ (inner.fill front back rule items :: Tree.moveAll back after)
          (h.allEach_front before hbefore)).2 hbefore'
      obtain ⟨hblock', hlone', hseparated', hchildren'⟩ :=
        (visitLists_append _ [] (h.allEach_back after hafter)).2 hafter'
      simp only [List.append_nil] at hblock' hlone' hseparated' hchildren'
      rw [fill]
      cases outer with
      | block =>
        simp [visit, hblock, visitBlock, hexcluded, ih hinner, hblock', append_none]
      | lone =>
        simp [visit, hlone, visitLone, hexcluded, ih hinner, hlone', append_none]
      | list =>
        simp [visit, hseparated, visitSeparated, hexcluded, hhole, ih hinner, hseparated',
          append_none]
      | declarators =>
        simp [visit, hseparated, visitSeparated, hexcluded, hhole, goesOrHole, ih hinner,
          hseparated', append_none]
      | members =>
        simp [visit, hseparated, visitSeparated, hexcluded, hhole, ih hinner, hseparated',
          append_none]
      | children =>
        simp [visit, hchildren, visitChildren, hexcluded, hcontainer, ih hinner, hchildren',
          append_none]

/-- What is left of a compound statement whose front and back stay is what is left of the series in
it. -/
theorem prune_fill {items' : List Tree} (h : Kept e front back n m)
    (hsound : around.sound n m = true)
    (hitems : e.prune (.series rule items) = some (.series rule items')) :
  e.prune (around.fill front back rule items) = some (around.fill front back rule items')
  := by
  induction around with
  | hole => exact hitems
  | node kind lo hi before inner after ih =>
      obtain ⟨-, ⟨hlo, hpos, hhi⟩, hbefore, hinner, hafter⟩ := sound_node hsound
      have hbefore := h.allEach_front before hbefore
      have hafter := h.allEach_back after hafter
      have hexcluded := h.across lo hi hlo hpos hhi
      have hstraddles := h.straddles_fill hbefore hafter hinner rule items
      have hlast := (pruneLists_append (Tree.moveAll back after) [] hafter).1
      have hall : e.pruneAll (Tree.moveAll front before
          ++ inner.fill front back rule items :: Tree.moveAll back after)
            = Tree.moveAll front before
              ++ inner.fill front back rule items' :: Tree.moveAll back after := by
        rw [List.append_nil, pruneAll, List.append_nil] at hlast
        rw [(pruneLists_append _ _ hbefore).1, pruneAll, ih hinner, Option.getD_some, hlast]
      rw [fill, fill]
      cases kind with
      | element place => cases place <;> simp [prune, hall, hexcluded, hstraddles]
      | fragment place => cases place <;> simp [prune, hall, hexcluded]
      | _ => simp [prune, hall]
  | series outer before inner after ih =>
      obtain ⟨hnode, ⟨hbefore', hafter'⟩, hbefore, hinner, hafter⟩ := sound_series hsound
      obtain ⟨hexcluded, hhole, hcontainer⟩ := h.excluded_fill hinner hnode rule items
      have hbefore' := Tree.forall_span_moveAll hbefore hbefore' fun s _ hlo hhi =>
        h.stays_front s hlo hhi
      have hafter' := Tree.forall_span_moveAll hafter hafter' fun s _ hlo hhi =>
        h.stays_back s hlo hhi
      obtain ⟨hblock, hlone, hseparated, hchildren⟩ :=
        (pruneLists_append _ (inner.fill front back rule items :: Tree.moveAll back after)
          (h.allEach_front before hbefore)).2 hbefore'
      obtain ⟨hblock', hlone', hseparated', hchildren'⟩ :=
        (pruneLists_append _ [] (h.allEach_back after hafter)).2 hafter'
      simp only [List.append_nil, pruneBlock, pruneLone, pruneSeparated, pruneChildren]
        at hblock' hlone' hseparated' hchildren'
      rw [fill, fill]
      cases outer with
      | block => simp [prune, hblock, pruneBlock, hexcluded, ih hinner, hblock']
      | lone => simp [prune, hlone, pruneLone, hexcluded, ih hinner, hlone']
      | list =>
        simp [prune, hseparated, pruneSeparated, hexcluded, hhole, ih hinner, hseparated']
      | declarators =>
        simp [prune, hseparated, pruneSeparated, hexcluded, hhole, goesOrHole, ih hinner,
          hseparated']
      | members =>
        simp [prune, hseparated, pruneSeparated, hexcluded, hhole, ih hinner, hseparated']
      | children =>
        simp [prune, hchildren, pruneChildren, hexcluded, hcontainer, ih hinner, hchildren']

end Kept

/-- The tree of a compound statement without positions depends on those in it alone. -/
theorem shape_fill {front' back' : Nat} {items' : List Tree}
    (h : Tree.shapes items = Tree.shapes items') :
  (around.fill front back rule items).shape = (around.fill front' back' rule items').shape
  := by
  have happend (ts us : List Tree) : Tree.shapes (ts ++ us) = Tree.shapes ts ++ Tree.shapes us := by
    induction ts with
    | nil => rfl
    | cons t ts ih => rw [List.cons_append, Tree.shapes, ih, Tree.shapes, List.cons_append]
  induction around with
  | hole => rw [fill, fill, Tree.shape, Tree.shape, h]
  | node kind lo hi before inner after ih =>
      rw [fill, fill, Tree.shape, Tree.shape, happend, happend, Tree.shapes, Tree.shapes, ih]
      simp only [Tree.shapes_move]
  | series outer before inner after ih =>
      rw [fill, fill, Tree.shape, Tree.shape, happend, happend, Tree.shapes, Tree.shapes, ih]
      simp only [Tree.shapes_move]

end Around

/-- The deletion of what has a span. -/
def Edit.deletion (s : Span) : Edit :=
  ⟨s.lo, s.hi, ""⟩

/-! ### Where statements around others stand -/

/-- Whether the front and the back of a statement around others stand at bytes and lines of the text
of an elision, the one before the other. -/
structure Compound.Placed (e : Elision) (f : Compound) (front back line below : Nat) : Prop where
  atFront : ∃ rest, e.At front line (f.front ++ rest)
  atBack : ∃ rest, e.At back below (f.back ++ rest)
  le : front + byteLength f.front ≤ back

theorem Compound.span_fill {f : Compound} (hroot : ∃ kind before around after,
      f.around = .node kind 0 (byteLength f.back) before around after)
    (front back : Nat) (rule : Rule) (items : List Tree) :
  (f.around.fill front back rule items).span = ⟨front, back + byteLength f.back⟩
  := by
  obtain ⟨kind, before, around, after, hroot⟩ := hroot
  rw [hroot]
  rfl

namespace Compound.Placed

variable {e : Elision} {f : Compound} {front back line below : Nat}

/-- Whether a statement around others goes is told by its lines. -/
theorem excluded_fill (h : f.Placed e front back line below)
    (hroot : ∃ kind before around after,
      f.around = .node kind 0 (byteLength f.back) before around after)
    (hne : f.back ≠ []) (hlast : f.back.getLast? ≠ some '\n') (rule : Rule) (items : List Tree) :
  e.excluded (f.around.fill front back rule items).span
    = LineRange.anyContains e.ranges line (below + feeds f.back)
  := by
  obtain ⟨rest, hfront⟩ := h.atFront
  obtain ⟨rest', hback⟩ := h.atBack
  have hpos := byteLength_pos hne
  have hle := h.le
  have hlines := hback.linesOf_eq hne hlast
  rw [linesOf_of_lt _ (by omega)] at hlines
  rw [span_fill hroot, e.excluded_eq, linesOf_of_lt _ (by omega), hfront.line,
    (Prod.ext_iff.mp hlines).2]

/-- A statement around others can be taken out. -/
theorem proper (h : f.Placed e front back line below) (hne : f.back ≠ []) :
  (Edit.deletion ⟨front, back + byteLength f.back⟩).Proper e.text
  := by
  obtain ⟨rest, hfront⟩ := h.atFront
  obtain ⟨rest', hback⟩ := h.atBack
  have hpos := byteLength_pos hne
  have hle := h.le
  apply Elision.proper_deletion _ hfront.stands.boundary hback.stands.append.boundary
  omega

/-- The front and the back of a statement stay that no range meets, and in which no directive
stands. -/
theorem kept (h : f.Placed e front back line below)
    (hranges : ∀ r ∈ e.ranges, ¬(r.first ≤ line + feeds f.front ∧ line ≤ r.last) ∧
      ¬(r.first ≤ below + feeds f.back ∧ below ≤ r.last))
    (hmarks : ∀ d ∈ e.directives, d.lo < d.hi ∧ (d.hi ≤ front ∨
      front + byteLength f.front ≤ d.lo ∧ d.hi ≤ back ∨ back + byteLength f.back ≤ d.lo)) :
  Around.Kept e front back (byteLength f.front) (byteLength f.back)
  := by
  obtain ⟨rest, hfront⟩ := h.atFront
  obtain ⟨rest', hback⟩ := h.atBack
  have hle := h.le
  constructor
  · intro s hlo hhi
    apply hfront.stays _ _ hlo hhi
    · exact fun r hr hfirst hlast => (hranges r hr).1 ⟨hfirst, hlast⟩
    · intro d hd hin
      have := hmarks d hd
      omega
  · intro s hlo hhi
    apply hback.stays _ _ hlo hhi
    · exact fun r hr hfirst hlast => (hranges r hr).2 ⟨hfirst, hlast⟩
    · intro d hd hin
      have := hmarks d hd
      omega
  · intro lo hi hlo hpos hhi
    have hends := hfront.append.line
    rw [e.excluded_eq, linesOf_of_lt _ (by omega), LineRange.anyContains, List.any_eq_false]
    intro r hr hcontains
    rw [LineRange.contains, Bool.and_eq_true, decide_eq_true_eq, decide_eq_true_eq] at hcontains
    have hfirst := lineAt_mono e.starts (Nat.add_le_add_left hlo front)
    have hlast := @lineAt_mono front (back + hi - 1) e.starts (by omega)
    rw [hfront.line] at hlast
    exact (hranges r hr).1 ⟨by omega, by omega⟩

end Compound.Placed

/-! ### What goes of a program -/

theorem Remark.Sound.ne_nil {r : Remark} (h : r.Sound) :
  r.code ≠ []
  := by
  intro hnil
  have hmark := h.mark
  rw [hnil] at hmark
  contradiction

/-- The spans of the directives in a list, the first place of which starts at a byte. -/
def Cells.marks (switches : Switches) (pos : Nat) (cells : Cells) : List Span :=
  ((cells.comments pos).filter fun c => isDirective c.text switches).map Comment.span

namespace Program

/-- The spans of the directives of a program that stands at a byte. -/
def marks (switches : Switches) (pos : Nat) : Program → List Span
  | nil => []
  | blank indent next => next.marks switches (behind pos indent [])
  | remark indent r next =>
    let rest := next.marks switches (behind pos indent r.code)
    if isDirective r.text switches then
      ⟨pos + byteLength indent, pos + byteLength indent + byteLength r.code⟩ :: rest
    else rest
  | phrase indent s next => next.marks switches (behind pos indent s.code)
  | compound indent f body foot next =>
    let inside := behind pos indent f.front
    let below := inside + byteLength body.text
    body.marks switches inside ++ next.marks switches (behind below foot f.back)
  | listing indent f cells next =>
    cells.marks switches (pos + byteLength indent + byteLength f.front)
      ++ next.marks switches (behind pos indent (f.code cells))

/-- What is taken out of a program that stands at a byte: what goes of its statements, and its
directives. -/
def taken (e : Elision) (switches : Switches) (pos : Nat) (p : Program) : List Edit :=
  (e.visitBlock (p.trees pos)).edits ++ (p.marks switches pos).map Edit.deletion

/-- Whether a program stands at a byte and a line of the text of an elision, and has all directives
that stand in it. -/
structure Sits (p : Program) (e : Elision) (switches : Switches) (pos line : Nat)
    (tail : List Char) : Prop where
  place : e.At pos line (p.text ++ tail)
  proper : ∀ d ∈ e.directives, d.lo < d.hi
  marks : ∀ d ∈ e.directives,
    d ∈ p.marks switches pos ∨ d.hi ≤ pos ∨ pos + byteLength p.text ≤ d.lo

variable {read : Reader} {p next body : Program} {e : Elision} {switches : Switches}
  {pos line : Nat} {tail indent foot : List Char} {d : Span} {r : Remark} {s : Phrase}
  {f : Compound} {cells : Cells}

/-- The directives in a list stand in it. -/
theorem bounds_of_mem_marks (hd : d ∈ cells.marks switches pos) :
  pos ≤ d.lo ∧ d.lo < d.hi ∧ d.hi ≤ pos + byteLength cells.text
  := by
  obtain ⟨c, hc, rfl⟩ := List.mem_map.mp hd
  exact Cells.comments_bounds (List.mem_filter.mp hc).1

/-- The directives of a program stand in it. -/
theorem Closed.marks_bounds (h : p.Closed read) (hd : d ∈ p.marks switches pos) :
  pos ≤ d.lo ∧ d.lo < d.hi ∧ d.hi < pos + byteLength p.text
  := by
  induction p generalizing read pos with
  | nil => simp [Program.marks] at hd
  | blank indent next ih =>
      obtain ⟨hlo, hlt, hhi⟩ := ih h.2 hd
      rw [end_blank]
      exact ⟨by rw [behind] at hlo; omega, hlt, hhi⟩
  | remark indent r next ih =>
      rw [end_remark]
      simp only [Program.marks] at hd
      have hpos := byteLength_pos h.2.1.ne_nil
      split at hd
      · obtain rfl | hd := List.mem_cons.mp hd
        · simp only [behind]
          omega
        · obtain ⟨hlo, hlt, hhi⟩ := ih h.2.2 hd
          exact ⟨by rw [behind] at hlo; omega, hlt, hhi⟩
      · obtain ⟨hlo, hlt, hhi⟩ := ih h.2.2 hd
        exact ⟨by rw [behind] at hlo; omega, hlt, hhi⟩
  | phrase indent s next ih =>
      obtain ⟨hlo, hlt, hhi⟩ := ih h.2.2 hd
      rw [end_phrase]
      exact ⟨by rw [behind] at hlo; omega, hlt, hhi⟩
  | compound indent f body foot next ihbody ih =>
      obtain ⟨-, -, ⟨inner, -, hbody⟩, hnext⟩ := h
      rw [end_compound]
      obtain hd | hd := List.mem_append.mp hd
      · obtain ⟨hlo, hlt, hhi⟩ := ihbody hbody hd
        exact ⟨by rw [behind] at hlo; omega, hlt, by rw [behind]; omega⟩
      · obtain ⟨hlo, hlt, hhi⟩ := ih hnext hd
        exact ⟨by rw [behind, behind] at hlo; omega, hlt, hhi⟩
  | listing indent f cells next ih =>
      rw [end_listing, behind_code]
      obtain hd | hd := List.mem_append.mp hd
      · obtain ⟨hlo, hlt, hhi⟩ := bounds_of_mem_marks hd
        exact ⟨by omega, hlt, by omega⟩
      · obtain ⟨hlo, hlt, hhi⟩ := ih h.2.2 hd
        rw [behind_code] at hlo hhi
        exact ⟨by omega, hlt, hhi⟩

/-- Whether an edit takes out something of the text of an elision between two bytes, in front of the
second. -/
def TakesWithin (e : Elision) (lo hi : Nat) (edit : Edit) : Prop :=
  edit.Proper e.text ∧ lo ≤ edit.lo ∧ edit.hi < hi

theorem TakesWithin.mono {lo lo' hi hi' : Nat} {edit : Edit} (h : TakesWithin e lo' hi' edit)
    (hlo : lo ≤ lo') (hhi : hi' ≤ hi) :
  TakesWithin e lo hi edit
  := ⟨h.1, Nat.le_trans hlo h.2.1, Nat.lt_of_lt_of_le h.2.2 hhi⟩

namespace Sits

theorem blank_next (h : (blank indent next).Sits e switches pos line tail)
    (hindent : Indent indent) :
  next.Sits e switches (behind pos indent []) (line + 1) tail
  := by
  obtain ⟨hplace, hproper, hmarks⟩ := h
  simp only [Program.text, List.append_assoc, List.cons_append] at hplace
  refine ⟨(hplace.indent hindent).feed, hproper, fun d hd => ?_⟩
  have hmark := hmarks d hd
  rw [end_blank] at hmark
  exact hmark.imp_right (Or.imp_left fun hle => by rw [behind]; omega)

theorem remark_next (h : (remark indent r next).Sits e switches pos line tail)
    (hindent : Indent indent) :
  next.Sits e switches (behind pos indent r.code) (line + feeds r.code + 1) tail
  := by
  obtain ⟨hplace, hproper, hmarks⟩ := h
  simp only [Program.text, List.append_assoc, List.cons_append] at hplace
  refine ⟨hplace.behind hindent, hproper, fun d hd => ?_⟩
  have hmark := hmarks d hd
  rw [end_remark] at hmark
  obtain hmark | hmark | hmark := hmark
  · simp only [Program.marks] at hmark
    split at hmark
    · obtain rfl | hmark := List.mem_cons.mp hmark
      · right
        left
        simp only [behind]
        omega
      · exact .inl hmark
    · exact .inl hmark
  · exact .inr (.inl (by rw [behind]; omega))
  · exact .inr (.inr hmark)

theorem phrase_next (h : (phrase indent s next).Sits e switches pos line tail)
    (hindent : Indent indent) :
  next.Sits e switches (behind pos indent s.code) (line + feeds s.code + 1) tail
  := by
  obtain ⟨hplace, hproper, hmarks⟩ := h
  simp only [Program.text, List.append_assoc, List.cons_append] at hplace
  refine ⟨hplace.behind hindent, hproper, fun d hd => ?_⟩
  have hmark := hmarks d hd
  rw [end_phrase] at hmark
  exact hmark.imp_right (Or.imp_left fun hle => by rw [behind]; omega)

theorem compound_body (h : (compound indent f body foot next).Sits e switches pos line tail)
    (hindent : Indent indent) (hnext : next.Closed read) :
  body.Sits e switches (behind pos indent f.front) (line + feeds f.front + 1)
    (foot ++ (f.back ++ '\n' :: (next.text ++ tail)))
  := by
  obtain ⟨hplace, hproper, hmarks⟩ := h
  simp only [Program.text, List.append_assoc, List.cons_append] at hplace
  refine ⟨hplace.behind hindent, hproper, fun d hd => ?_⟩
  have hmark := hmarks d hd
  rw [end_compound] at hmark
  obtain hmark | hmark | hmark := hmark
  · obtain hmark | hmark := List.mem_append.mp hmark
    · exact .inl hmark
    · obtain ⟨hlo, -⟩ := hnext.marks_bounds hmark
      rw [behind] at hlo
      exact .inr (.inr (by omega))
  · exact .inr (.inl (by rw [behind]; omega))
  · rw [behind] at hmark
    exact .inr (.inr (by omega))

theorem compound_next (h : (compound indent f body foot next).Sits e switches pos line tail)
    (hindent : Indent indent) (hfoot : Indent foot) (hbody : body.Closed read) :
  next.Sits e switches (behind (behind pos indent f.front + byteLength body.text) foot f.back)
    (line + feeds f.front + 1 + feeds body.text + feeds f.back + 1) tail
  := by
  obtain ⟨hplace, hproper, hmarks⟩ := h
  simp only [Program.text, List.append_assoc, List.cons_append] at hplace
  refine ⟨(hplace.behind hindent).append.behind hfoot, hproper, fun d hd => ?_⟩
  have hmark := hmarks d hd
  rw [end_compound] at hmark
  obtain hmark | hmark | hmark := hmark
  · obtain hmark | hmark := List.mem_append.mp hmark
    · obtain ⟨-, -, hhi⟩ := hbody.marks_bounds hmark
      exact .inr (.inl (by rw [behind]; omega))
    · exact .inl hmark
  · exact .inr (.inl (by rw [behind, behind]; omega))
  · exact .inr (.inr hmark)

theorem listing_next (h : (listing indent f cells next).Sits e switches pos line tail)
    (hindent : Indent indent) :
  next.Sits e switches (behind pos indent (f.code cells))
    (line + feeds f.front + feeds cells.text + feeds f.back + 1) tail
  := by
  obtain ⟨hplace, hproper, hmarks⟩ := h
  simp only [Program.text, List.append_assoc, List.cons_append] at hplace
  have hbehind := hplace.behind hindent
  rw [feeds_code] at hbehind
  refine ⟨hbehind, hproper, fun d hd => ?_⟩
  have hmark := hmarks d hd
  rw [end_listing] at hmark
  obtain hmark | hmark | hmark := hmark
  · obtain hmark | hmark := List.mem_append.mp hmark
    · obtain ⟨-, -, hhi⟩ := bounds_of_mem_marks hmark
      exact .inr (.inl (by rw [behind_code]; omega))
    · exact .inl hmark
  · exact .inr (.inl (by rw [behind]; omega))
  · exact .inr (.inr hmark)

/-- A statement stands at its byte. -/
theorem place_phrase (h : (phrase indent s next).Sits e switches pos line tail)
    (hindent : Indent indent) :
  e.At (pos + byteLength indent) line (s.code ++ '\n' :: (next.text ++ tail))
  := by
  have hplace := h.place
  simp only [Program.text, List.append_assoc, List.cons_append] at hplace
  exact hplace.indent hindent

/-- Whether a statement goes is told by its lines. -/
theorem excluded_phrase (h : (phrase indent s next).Sits e switches pos line tail)
    (hindent : Indent indent) (hs : s.Closed read) :
  e.excluded (s.tree.move (pos + byteLength indent)).span
    = LineRange.anyContains e.ranges line (line + feeds s.code)
  := by
  obtain ⟨c, cs, hcode, -⟩ := hs.begins.start
  have hspan : (s.tree.move (pos + byteLength indent)).span
      = ⟨pos + byteLength indent, pos + byteLength indent + byteLength s.code⟩ := by
    rw [Tree.span_move hs.isNode, hs.span]
    rfl
  rw [hspan, e.excluded_eq, (h.place_phrase hindent).linesOf_eq (by simp [hcode]) hs.last]

/-- A statement that does not go stays as it is. -/
theorem each_phrase (h : (phrase indent s next).Sits e switches pos line tail)
    (hindent : Indent indent) (hs : s.Closed read) (hnext : next.Closed read)
    (hwhole : (phrase indent s next).Whole e.ranges line)
    (hkept : LineRange.anyContains e.ranges line (line + feeds s.code) = false) :
  (s.tree.move (pos + byteLength indent)).Each e.Stays
  := by
  apply Tree.each_move _ _ hs.within
  intro span _ hlo hhi
  apply (h.place_phrase hindent).stays _ _ hlo hhi
  · intro r hr hfirst hlast
    rw [LineRange.anyContains, List.any_eq_false] at hkept
    exact hkept r hr (hwhole.1 r hr hfirst hlast)
  · intro d hd hinside
    have hproper := h.proper d hd
    have hmark := h.marks d hd
    rw [end_phrase] at hmark
    obtain hmark | hmark | hmark := hmark
    · obtain ⟨hlo, -⟩ := hnext.marks_bounds hmark
      rw [behind] at hlo
      omega
    · omega
    · rw [behind] at hmark
      omega

/-- A compound statement stands where its front and its back do. -/
theorem placed_compound (h : (compound indent f body foot next).Sits e switches pos line tail)
    (hindent : Indent indent) (hfoot : Indent foot) :
  f.Placed e (pos + byteLength indent)
    (behind pos indent f.front + byteLength body.text + byteLength foot) line
    (line + feeds f.front + 1 + feeds body.text)
  := by
  have hplace := h.place
  simp only [Program.text, List.append_assoc, List.cons_append] at hplace
  exact ⟨⟨_, hplace.indent hindent⟩, ⟨_, (hplace.behind hindent).append.indent hfoot⟩,
    by rw [behind]; omega⟩

/-- The front and the back of a compound statement that does not go stay as they are. -/
theorem kept_compound (h : (compound indent f body foot next).Sits e switches pos line tail)
    (hindent : Indent indent) (hfoot : Indent foot) {inner : Reader} (hbody : body.Closed inner)
    (hnext : next.Closed read) (hwhole : (compound indent f body foot next).Whole e.ranges line)
    (hkept : LineRange.anyContains e.ranges line
      (line + feeds f.front + 1 + feeds body.text + feeds f.back) = false) :
  Around.Kept e (pos + byteLength indent)
    (behind pos indent f.front + byteLength body.text + byteLength foot)
    (byteLength f.front) (byteLength f.back)
  := by
  rw [LineRange.anyContains, List.any_eq_false] at hkept
  apply (h.placed_compound hindent hfoot).kept
  · intro r hr
    have hcut := mt (hwhole.1 r hr) (hkept r hr)
    omega
  · intro d hd
    refine ⟨h.proper d hd, ?_⟩
    have hmark := h.marks d hd
    rw [end_compound] at hmark
    obtain hmark | hmark | hmark := hmark
    · obtain hmark | hmark := List.mem_append.mp hmark
      · obtain ⟨hlo, -, hhi⟩ := hbody.marks_bounds hmark
        rw [behind] at hlo
        exact .inr (.inl ⟨by omega, by omega⟩)
      · obtain ⟨hlo, -⟩ := hnext.marks_bounds hmark
        rw [behind] at hlo
        exact .inr (.inr (by omega))
    · exact .inl (by omega)
    · rw [behind] at hmark
      exact .inr (.inr (by omega))

/-- A statement around a list stands where its front and its back do. -/
theorem placed_listing (h : (listing indent f cells next).Sits e switches pos line tail)
    (hindent : Indent indent) :
  f.Placed e (pos + byteLength indent)
    (pos + byteLength indent + byteLength f.front + byteLength cells.text) line
    (line + feeds f.front + feeds cells.text)
  := by
  have hplace := h.place
  simp only [Program.text, Compound.code, List.append_assoc, List.cons_append] at hplace
  exact ⟨⟨_, hplace.indent hindent⟩, ⟨_, (hplace.indent hindent).append.append⟩,
    Nat.le_add_right _ _⟩

/-- The front and the back of a statement around a list that does not go stay as they are. -/
theorem kept_listing (h : (listing indent f cells next).Sits e switches pos line tail)
    (hindent : Indent indent) (hnext : next.Closed read)
    (hwhole : (listing indent f cells next).Whole e.ranges line)
    (hkept : LineRange.anyContains e.ranges line
      (line + feeds f.front + feeds cells.text + feeds f.back) = false) :
  Around.Kept e (pos + byteLength indent)
    (pos + byteLength indent + byteLength f.front + byteLength cells.text)
    (byteLength f.front) (byteLength f.back)
  := by
  rw [LineRange.anyContains, List.any_eq_false] at hkept
  apply (h.placed_listing hindent).kept
  · intro r hr
    have hcut := mt (hwhole.1 r hr) (hkept r hr)
    omega
  · intro d hd
    refine ⟨h.proper d hd, ?_⟩
    have hmark := h.marks d hd
    rw [end_listing, behind_code] at hmark
    obtain hmark | hmark | hmark := hmark
    · obtain hmark | hmark := List.mem_append.mp hmark
      · obtain ⟨hlo, -, hhi⟩ := bounds_of_mem_marks hmark
        exact .inr (.inl ⟨hlo, hhi⟩)
      · obtain ⟨hlo, -⟩ := hnext.marks_bounds hmark
        rw [behind_code] at hlo
        exact .inr (.inr (by omega))
    · exact .inl (by omega)
    · exact .inr (.inr (by omega))

/-! What is taken out of a program is what is taken out of its first line and of what is behind it.
-/

open Edit

variable {edit : Edit}

theorem mem_taken_iff {p : Program} :
  edit ∈ p.taken e switches pos ↔
    edit ∈ (e.visitBlock (p.trees pos)).edits ∨ ∃ d ∈ p.marks switches pos, deletion d = edit
  := by
  rw [taken, List.mem_append, List.mem_map]

theorem mem_taken_remark :
  edit ∈ (remark indent r next).taken e switches pos ↔
    isDirective r.text switches = true ∧
        edit = deletion ⟨pos + byteLength indent, pos + byteLength indent + byteLength r.code⟩ ∨
      edit ∈ next.taken e switches (behind pos indent r.code)
  := by
  rw [mem_taken_iff, mem_taken_iff, trees]
  simp only [Program.marks]
  cases isDirective r.text switches with
  | true => simp [or_left_comm, eq_comm]
  | false => simp

/-- What is taken out of trees if the first one goes. -/
theorem edits_visitBlock_gone {t : Tree} (hgoes : e.excluded t.span = true) (ts : List Tree) :
  (e.visitBlock (t :: ts)).edits = deletion t.span :: (e.visitBlock ts).edits
  := by
  rw [Elision.visitBlock, if_pos hgoes]
  rfl

theorem edits_visitBlock_kept {t : Tree} (hstays : e.excluded t.span = false) (ts : List Tree) :
  (e.visitBlock (t :: ts)).edits = (e.visit "null" t).edits ++ (e.visitBlock ts).edits
  := by
  rw [Elision.visitBlock, hstays, if_neg Bool.false_ne_true]
  rfl

theorem mem_taken_phrase (h : (phrase indent s next).Sits e switches pos line tail)
    (hindent : Indent indent) (hs : s.Closed read) (hnext : next.Closed read)
    (hwhole : (phrase indent s next).Whole e.ranges line) (edit : Edit) :
  edit ∈ (phrase indent s next).taken e switches pos ↔
    LineRange.anyContains e.ranges line (line + feeds s.code) = true ∧
        edit = deletion ⟨pos + byteLength indent, pos + byteLength indent + byteLength s.code⟩ ∨
      edit ∈ next.taken e switches (behind pos indent s.code)
  := by
  have hexcluded := h.excluded_phrase hindent hs
  rw [mem_taken_iff, mem_taken_iff, trees]
  simp only [Program.marks]
  cases hgoes : LineRange.anyContains e.ranges line (line + feeds s.code) with
  | true =>
      rw [hgoes] at hexcluded
      rw [edits_visitBlock_gone hexcluded, Tree.span_move hs.isNode, hs.span, List.mem_cons]
      simp [Span.move, or_assoc]
  | false =>
      rw [hgoes] at hexcluded
      rw [edits_visitBlock_kept hexcluded,
        Elision.visit_eq_none _ (h.each_phrase hindent hs hnext hwhole hgoes)]
      simp [Elision.Found.none]

theorem mem_taken_compound_gone
    (h : (compound indent f body foot next).Sits e switches pos line tail)
    (hindent : Indent indent) (hfoot : Indent foot) {inner : Reader} (hf : f.Closed read inner)
    (hgoes : LineRange.anyContains e.ranges line
      (line + feeds f.front + 1 + feeds body.text + feeds f.back) = true) (edit : Edit) :
  edit ∈ (compound indent f body foot next).taken e switches pos ↔
    (edit = deletion ⟨pos + byteLength indent,
        behind pos indent f.front + byteLength body.text + byteLength foot + byteLength f.back⟩ ∨
      ∃ d ∈ body.marks switches (behind pos indent f.front), deletion d = edit) ∨
    edit ∈ next.taken e switches
      (behind (behind pos indent f.front + byteLength body.text) foot f.back)
  := by
  have hexcluded := (h.placed_compound hindent hfoot).excluded_fill hf.root
    (by obtain ⟨cs, hcs⟩ := hf.closes; simp [hcs]) hf.last .block
    (body.trees (behind pos indent f.front))
  rw [hgoes] at hexcluded
  rw [mem_taken_iff, mem_taken_iff, trees, edits_visitBlock_gone hexcluded,
    Compound.span_fill hf.root, List.mem_cons]
  simp only [Program.marks, List.mem_append, or_and_right, exists_or]
  simp only [or_assoc, or_left_comm]

theorem mem_taken_compound_kept
    (h : (compound indent f body foot next).Sits e switches pos line tail)
    (hindent : Indent indent) (hfoot : Indent foot) {inner : Reader} (hf : f.Closed read inner)
    (hbody : body.Closed inner) (hnext : next.Closed read)
    (hwhole : (compound indent f body foot next).Whole e.ranges line)
    (hkept : LineRange.anyContains e.ranges line
      (line + feeds f.front + 1 + feeds body.text + feeds f.back) = false) (edit : Edit) :
  edit ∈ (compound indent f body foot next).taken e switches pos ↔
    edit ∈ body.taken e switches (behind pos indent f.front) ∨ edit ∈ next.taken e switches
      (behind (behind pos indent f.front + byteLength body.text) foot f.back)
  := by
  have hexcluded := (h.placed_compound hindent hfoot).excluded_fill hf.root
    (by obtain ⟨cs, hcs⟩ := hf.closes; simp [hcs]) hf.last .block
    (body.trees (behind pos indent f.front))
  rw [hkept] at hexcluded
  have hvisit := (h.kept_compound hindent hfoot hbody hnext hwhole hkept).visit_fill
    hf.sound "null" .block (body.trees (behind pos indent f.front))
  rw [mem_taken_iff, mem_taken_iff, mem_taken_iff, trees, edits_visitBlock_kept hexcluded, hvisit,
    Elision.visit]
  simp only [Program.marks, List.mem_append, or_and_right, exists_or]
  simp only [or_assoc, or_left_comm]

theorem mem_taken_listing_gone {member : Leaf → Prop} {holes : Bool}
    (h : (listing indent f cells next).Sits e switches pos line tail)
    (hindent : Indent indent) (hf : f.ClosedList read member holes)
    (hgoes : LineRange.anyContains e.ranges line
      (line + feeds f.front + feeds cells.text + feeds f.back) = true) (edit : Edit) :
  edit ∈ (listing indent f cells next).taken e switches pos ↔
    (edit = deletion ⟨pos + byteLength indent, pos + byteLength indent + byteLength f.front
        + byteLength cells.text + byteLength f.back⟩ ∨
      ∃ d ∈ cells.marks switches (pos + byteLength indent + byteLength f.front),
        deletion d = edit) ∨
    edit ∈ next.taken e switches (behind pos indent (f.code cells))
  := by
  have hne : f.back ≠ [] := by
    obtain ⟨c, cs, hcs, -⟩ := hf.closes
    simp [hcs]
  have hexcluded := (h.placed_listing hindent).excluded_fill hf.root hne hf.last .list
    (cells.trees (pos + byteLength indent + byteLength f.front))
  rw [hgoes] at hexcluded
  rw [mem_taken_iff, mem_taken_iff, trees, edits_visitBlock_gone hexcluded,
    Compound.span_fill hf.root, List.mem_cons]
  simp only [Program.marks, List.mem_append, or_and_right, exists_or]
  simp only [or_assoc, or_left_comm]

theorem mem_taken_listing_kept {member : Leaf → Prop} {holes : Bool}
    (h : (listing indent f cells next).Sits e switches pos line tail)
    (hindent : Indent indent) (hf : f.ClosedList read member holes) (hnext : next.Closed read)
    (hwhole : (listing indent f cells next).Whole e.ranges line)
    (hkept : LineRange.anyContains e.ranges line
      (line + feeds f.front + feeds cells.text + feeds f.back) = false) (edit : Edit) :
  edit ∈ (listing indent f cells next).taken e switches pos ↔
    (edit ∈ (e.visit "" (.series .list
        (cells.trees (pos + byteLength indent + byteLength f.front)))).edits ∨
      ∃ d ∈ cells.marks switches (pos + byteLength indent + byteLength f.front),
        deletion d = edit) ∨
    edit ∈ next.taken e switches (behind pos indent (f.code cells))
  := by
  have hne : f.back ≠ [] := by
    obtain ⟨c, cs, hcs, -⟩ := hf.closes
    simp [hcs]
  have hexcluded := (h.placed_listing hindent).excluded_fill hf.root hne hf.last .list
    (cells.trees (pos + byteLength indent + byteLength f.front))
  rw [hkept] at hexcluded
  have hvisit := (h.kept_listing hindent hnext hwhole hkept).visit_fill hf.sound "null" .list
    (cells.trees (pos + byteLength indent + byteLength f.front))
  rw [mem_taken_iff, mem_taken_iff, trees, edits_visitBlock_kept hexcluded, hvisit]
  simp only [Program.marks, List.mem_append, or_and_right, exists_or]
  simp only [or_assoc, or_left_comm]

/-- A list is a row in the text that it stands in. -/
theorem written_listing {member : Leaf → Prop} {holes : Bool}
    (h : (listing indent f cells next).Sits e switches pos line tail)
    (hindent : Indent indent) (hf : f.ClosedList read member holes)
    (hcells : cells.Sound member holes) :
  ∃ pre, byteLength pre = pos + byteLength indent + byteLength f.front ∧
    e.Written .list pre (cells.row (byteLength pre)) (f.back ++ '\n' :: (next.text ++ tail))
  := by
  have hplace := h.place
  simp only [Program.text, Compound.code, List.append_assoc, List.cons_append] at hplace
  obtain ⟨pre, htext, hpre⟩ := (hplace.indent hindent).append.stands
  refine ⟨pre, hpre, Cells.written hcells hf.leaf htext ?_⟩
  obtain ⟨c, cs, hback, hblank, hcomma, hslash⟩ := hf.closes
  rw [hback]
  rintro d ds ⟨⟩
  refine ⟨Bool.eq_false_iff.mpr fun hascii => ?_, by simpa using hcomma, fun hmark =>
    hslash hmark.1⟩
  rw [Elision.isBlank_of_isAsciiBlank hascii] at hblank
  contradiction

theorem proper_deletion_of_stands {mid rest : List Char} (hne : mid ≠ [])
    (h : Stands e.text (mid ++ rest) pos) :
  (deletion ⟨pos, pos + byteLength mid⟩).Proper e.text
  := by
  apply Elision.proper_deletion _ h.boundary h.append.boundary
  have := byteLength_pos hne
  omega

/-- The directives of a program can be taken out. -/
theorem proper_of_mem_marks (h : p.Sits e switches pos line tail) (hclosed : p.Closed read)
    (hd : d ∈ p.marks switches pos) :
  (deletion d).Proper e.text
  := by
  induction p generalizing read pos line tail with
  | nil => simp [Program.marks] at hd
  | blank indent next ih => exact ih (h.blank_next hclosed.1) hclosed.2 hd
  | remark indent r next ih =>
      have hnext := ih (h.remark_next hclosed.1) hclosed.2.2
      simp only [Program.marks] at hd
      split at hd
      · obtain rfl | hd := List.mem_cons.mp hd
        · have hplace := h.place
          simp only [Program.text, List.append_assoc, List.cons_append] at hplace
          exact proper_deletion_of_stands hclosed.2.1.ne_nil (hplace.indent hclosed.1).stands
        · exact hnext hd
      · exact hnext hd
  | phrase indent s next ih => exact ih (h.phrase_next hclosed.1) hclosed.2.2 hd
  | compound indent f body foot next ihbody ih =>
      obtain ⟨hindent, hfoot, ⟨inner, hf, hbody⟩, hnext⟩ := hclosed
      obtain hd | hd := List.mem_append.mp hd
      · exact ihbody (h.compound_body hindent hnext) hbody hd
      · exact ih (h.compound_next hindent hfoot hbody) hnext hd
  | listing indent f cells next ih =>
      obtain ⟨hindent, ⟨member, holes, hf, hcells⟩, hnext⟩ := hclosed
      obtain hd | hd := List.mem_append.mp hd
      · obtain ⟨pre, hpre, hwritten⟩ := h.written_listing hindent hf hcells
        obtain ⟨c, hc, rfl⟩ := List.mem_map.mp hd
        rw [← hpre] at hc
        exact Elision.proper_comment hwritten (List.mem_filter.mp hc).1
      · exact ih (h.listing_next hindent) hnext hd

theorem takesWithin_of_mem_marks (h : p.Sits e switches pos line tail) (hclosed : p.Closed read)
    (hd : d ∈ p.marks switches pos) :
  TakesWithin e pos (pos + byteLength p.text) (deletion d)
  := by
  obtain ⟨hlo, -, hhi⟩ := hclosed.marks_bounds hd
  exact ⟨h.proper_of_mem_marks hclosed hd, hlo, hhi⟩

theorem takesWithin_compound (h : (compound indent f body foot next).Sits e switches pos line tail)
    (hindent : Indent indent) (hfoot : Indent foot) {inner : Reader} (hf : f.Closed read inner)
    (hbody : body.Closed inner) (hnext : next.Closed read)
    (hwhole : (compound indent f body foot next).Whole e.ranges line)
    (hinside : ∀ edit ∈ body.taken e switches (behind pos indent f.front),
      TakesWithin e (behind pos indent f.front)
        (behind pos indent f.front + byteLength body.text) edit)
    (hbehind : ∀ edit ∈ next.taken e switches
        (behind (behind pos indent f.front + byteLength body.text) foot f.back),
      TakesWithin e (behind (behind pos indent f.front + byteLength body.text) foot f.back)
        (pos + byteLength (compound indent f body foot next).text) edit)
    (hedit : edit ∈ (compound indent f body foot next).taken e switches pos) :
  TakesWithin e pos (pos + byteLength (compound indent f body foot next).text) edit
  := by
  have hle := le_behind pos indent f.front
  have hle' := le_behind (behind pos indent f.front + byteLength body.text) foot f.back
  have hend := end_compound pos indent f body foot next
  have hne : f.back ≠ [] := by
    obtain ⟨cs, hcs⟩ := hf.closes
    simp [hcs]
  cases hgoes : LineRange.anyContains e.ranges line
      (line + feeds f.front + 1 + feeds body.text + feeds f.back) with
  | true =>
      obtain (rfl | ⟨d, hd, rfl⟩) | hedit :=
        (h.mem_taken_compound_gone hindent hfoot hf hgoes _).mp hedit
      · have hlast (n : Nat) : behind n foot f.back = n + byteLength foot + byteLength f.back + 1 :=
          rfl
        refine ⟨(h.placed_compound hindent hfoot).proper hne, ?_⟩
        simp only [deletion]
        rw [hlast] at hend
        omega
      · exact ((h.compound_body hindent hnext).takesWithin_of_mem_marks hbody hd).mono hle (by omega)
      · exact (hbehind _ hedit).mono (by omega) (Nat.le_refl _)
  | false =>
      obtain hedit | hedit :=
        (h.mem_taken_compound_kept hindent hfoot hf hbody hnext hwhole hgoes _).mp hedit
      · exact (hinside _ hedit).mono hle (by omega)
      · exact (hbehind _ hedit).mono (by omega) (Nat.le_refl _)

theorem takesWithin_listing {member : Leaf → Prop} {holes : Bool}
    (h : (listing indent f cells next).Sits e switches pos line tail) (hindent : Indent indent)
    (hf : f.ClosedList read member holes) (hcells : cells.Sound member holes)
    (hnext : next.Closed read) (hwhole : (listing indent f cells next).Whole e.ranges line)
    (hbehind : ∀ edit ∈ next.taken e switches (behind pos indent (f.code cells)),
      TakesWithin e (behind pos indent (f.code cells))
        (pos + byteLength (listing indent f cells next).text) edit)
    (hedit : edit ∈ (listing indent f cells next).taken e switches pos) :
  TakesWithin e pos (pos + byteLength (listing indent f cells next).text) edit
  := by
  obtain ⟨pre, hpre, hwritten⟩ := h.written_listing hindent hf hcells
  have hcode := behind_code pos indent f cells
  have hend := end_listing pos indent f cells next
  have hne : f.back ≠ [] := by
    obtain ⟨c, cs, hcs, -⟩ := hf.closes
    simp [hcs]
  have hmarks (d : Span)
      (hd : d ∈ cells.marks switches (pos + byteLength indent + byteLength f.front)) :
      TakesWithin e pos (pos + byteLength (listing indent f cells next).text) (deletion d) :=
    h.takesWithin_of_mem_marks ⟨hindent, ⟨member, holes, hf, hcells⟩, hnext⟩
      (List.mem_append_left _ hd)
  cases hgoes : LineRange.anyContains e.ranges line
      (line + feeds f.front + feeds cells.text + feeds f.back) with
  | true =>
      obtain (rfl | ⟨d, hd, rfl⟩) | hedit := (h.mem_taken_listing_gone hindent hf hgoes _).mp hedit
      · refine ⟨(h.placed_listing hindent).proper hne, ?_⟩
        simp only [deletion]
        omega
      · exact hmarks d hd
      · exact (hbehind _ hedit).mono (le_behind _ _ _) (Nat.le_refl _)
  | false =>
      obtain (hedit | ⟨d, hd, rfl⟩) | hedit :=
        (h.mem_taken_listing_kept hindent hf hnext hwhole hgoes _).mp hedit
      · rw [← hpre, Cells.mem_edits_iff (fun l hl => hf.leaf l (hcells.members l hl)) hwritten]
          at hedit
        obtain ⟨hproper, hlo, hhi⟩ := Elision.proper_of_mem_rowEdits hwritten hedit
        rw [Cells.text_row] at hhi
        exact ⟨hproper, by omega, by omega⟩
      · exact hmarks d hd
      · exact (hbehind _ hedit).mono (le_behind _ _ _) (Nat.le_refl _)

/-- What is taken out of a program is a part of it, and stands before the end of its last line. -/
theorem takesWithin_of_mem_taken (h : p.Sits e switches pos line tail) (hclosed : p.Closed read)
    (hwhole : p.Whole e.ranges line) (hedit : edit ∈ p.taken e switches pos) :
  TakesWithin e pos (pos + byteLength p.text) edit
  := by
  induction p generalizing read pos line tail edit with
  | nil => simp [taken, trees, Elision.visitBlock, Elision.Found.none, Program.marks] at hedit
  | blank indent next ih =>
      rw [end_blank]
      exact (ih (h.blank_next hclosed.1) hclosed.2 hwhole hedit).mono (le_behind _ _ _)
        (Nat.le_refl _)
  | remark indent r next ih =>
      obtain ⟨hmark, rfl⟩ | hedit := mem_taken_remark.mp hedit
      · apply h.takesWithin_of_mem_marks hclosed
        simp [Program.marks, hmark]
      · rw [end_remark]
        exact (ih (h.remark_next hclosed.1) hclosed.2.2 hwhole hedit).mono (le_behind _ _ _)
          (Nat.le_refl _)
  | phrase indent s next ih =>
      obtain ⟨hindent, hs, hnext⟩ := hclosed
      rw [end_phrase]
      obtain ⟨-, rfl⟩ | hedit := (h.mem_taken_phrase hindent hs hnext hwhole _).mp hedit
      · obtain ⟨c, cs, hcode, -⟩ := hs.begins.start
        refine ⟨proper_deletion_of_stands (by simp [hcode]) (h.place_phrase hindent).stands, ?_⟩
        simp only [deletion, behind]
        omega
      · exact (ih (h.phrase_next hindent) hnext hwhole.2 hedit).mono (le_behind _ _ _)
          (Nat.le_refl _)
  | compound indent f body foot next ihbody ih =>
      obtain ⟨hindent, hfoot, ⟨inner, hf, hbody⟩, hnext⟩ := hclosed
      apply h.takesWithin_compound hindent hfoot hf hbody hnext hwhole _ _ hedit
      · exact fun _ => ihbody (h.compound_body hindent hnext) hbody hwhole.2.1
      · rw [end_compound]
        exact fun _ => ih (h.compound_next hindent hfoot hbody) hnext hwhole.2.2
  | listing indent f cells next ih =>
      obtain ⟨hindent, ⟨member, holes, hf, hcells⟩, hnext⟩ := hclosed
      apply h.takesWithin_listing hindent hf hcells hnext hwhole _ hedit
      rw [end_listing]
      exact fun _ => ih (h.listing_next hindent) hnext hwhole.2

end Sits

end Program

end Prune
