import Mathlib.Data.List.Basic
import Prune.Proofs.Elision.Pruning
import Prune.Proofs.Program.Lines

/-!
# Members of lists

The places of a list in a program are the slots of a row (`Cells.written`), and so what is left of
the row when members go are the places of a list again, with the same things between its commas
(`Cells.exists_left`).  Its members and holes are those of the series that is left, if the list
loses no hole.
-/

namespace Prune

open Text Source Elision

/-! ### What lists are made of -/

/-- Whether a filler is read as it is. -/
def Filler.Sound : Filler → Prop
  | blank c => c = ' ' ∨ c = '\t' ∨ c = '\n'
  | line body => ∀ c ∈ body, isLineEnd c = false
  | block body => ¬['*', '/'] <:+: body ∧ '\r' ∉ body

theorem Filler.Sound.readable {f : Filler} (h : f.Sound) :
  f.Readable
  := by
  cases f with
  | blank c => obtain rfl | rfl | rfl := h <;> rfl
  | line body => exact fun hfeed => absurd (h _ hfeed) (by decide)
  | block body => exact h.1

theorem Filler.Sound.noReturn {f : Filler} (h : f.Sound) :
  '\r' ∉ f.text
  := by
  cases f with
  | blank c => obtain rfl | rfl | rfl := h <;> decide
  | line body =>
      have hbody : '\r' ∉ body := fun hreturn => absurd (h _ hreturn) (by decide)
      simp [text, hbody]
  | block body =>
      have hbody : '\r' ∉ body := h.2
      simp [text, hbody]

/-- Whether a member is a token that may stand in a list. -/
structure Leaf.Sound (l : Leaf) : Prop where
  ne : l.code ≠ []
  ink : ∀ c ∈ l.code, isBlank c = false
  notHole : l.kind ≠ .hole
  notFrame : l.kind.isFrame = false

namespace Cells

/-- The fillers of a list. -/
def fillers (cells : Cells) : List Filler :=
  (cells.row 0).fillers

/-- Whether a list is made of what is read as it is: its members are such as the list has, and no
place in front of a comma is empty if that is no hole. -/
structure Sound (member : Leaf → Prop) (holes : Bool) (cells : Cells) : Prop where
  fillers : ∀ f ∈ cells.fillers, f.Sound
  members : ∀ l ∈ cells.leaves, member l
  full : holes = false → cells.Full

variable {e : Elision} {edits : List Edit} {cells : Cells} {row : Row} {c : Cell} {t : Tree}
  {places places' : List (Option Tree)} {items : List Tree} {member : Leaf → Prop} {holes : Bool}
  {pre post : List Char} {pos n : Nat} {k : Comment}

/-! ### The row of a list -/

@[simp] theorem text_slot (c : Cell) (pos : Nat) :
  (c.slot pos).text = c.text
  := by
  rw [Slot.text, Cell.text, Cell.slot]
  cases c.leaf? <;> rfl

@[simp] theorem text_row (cells : Cells) (pos : Nat) :
  (cells.row pos).text = cells.text
  := by
  induction cells generalizing pos with
  | last c => exact text_slot c pos
  | cons c rest ih => rw [row, Row.text, text_slot, ih, text]

@[simp] theorem fillers_row (cells : Cells) (pos : Nat) :
  (cells.row pos).fillers = cells.fillers
  := by
  suffices h : ∀ n, (cells.row n).fillers = (cells.row pos).fillers from (h 0).symm
  intro n
  induction cells generalizing pos n with
  | last c => rfl
  | cons c rest ih => exact congrArg (_ ++ ·) (ih _ _)

/-- The members of the row of a list are those of the list. -/
theorem exists_leaf_of_mem_items {i : Item} (h : i ∈ (cells.row pos).items) :
  ∃ l ∈ cells.leaves, ∃ n, i = l.item n
  := by
  induction cells generalizing pos with
  | last c =>
      obtain ⟨l, hl, rfl⟩ := Option.map_eq_some_iff.mp (Option.mem_toList.mp h)
      exact ⟨l, by simp [leaves, hl], _, rfl⟩
  | cons c rest ih =>
      rw [row, Row.items, List.mem_append] at h
      obtain h | h := h
      · obtain ⟨l, hl, rfl⟩ := Option.map_eq_some_iff.mp (Option.mem_toList.mp h)
        exact ⟨l, by simp [leaves, hl], _, rfl⟩
      · obtain ⟨l, hl, hi⟩ := ih h
        exact ⟨l, List.mem_append_right _ hl, hi⟩

/-- Nothing goes in a member that stays. -/
theorem edits_visit_leaf {l : Leaf} (hl : l.Sound) (replacement : String) :
  (e.visit replacement (l.tree pos)).edits = []
  := by
  have hframe := hl.notFrame
  rw [Leaf.tree]
  generalize l.kind = kind at *
  cases kind with
  | element | fragment => simp [Kind.isFrame] at hframe
  | _ => rfl

theorem prune_leaf {l : Leaf} (hl : l.Sound) :
  e.prune (l.tree pos) = some (l.tree pos)
  := by
  have hframe := hl.notFrame
  rw [Leaf.tree]
  generalize l.kind = kind at *
  cases kind with
  | element | fragment => simp [Kind.isFrame] at hframe
  | _ => rfl

theorem isHole_leaf {l : Leaf} (hl : l.Sound) :
  isHole (l.tree pos) = false
  := beq_eq_false_iff_ne.mpr fun h => hl.notHole (Option.some.inj h)

/-- A member fits where it stands. -/
theorem fits_leaf {l : Leaf} (hl : l.Sound) :
  e.Fits pos (l.item pos)
  := by
  refine ⟨rfl, isHole_leaf hl, ?_, ?_, ?_⟩
  · exact ⟨_, List.head?_eq_some_head hl.ne, hl.ink _ (List.head_mem hl.ne)⟩
  · exact ⟨_, List.getLast?_eq_some_getLast hl.ne, hl.ink _ (List.getLast_mem hl.ne)⟩
  · intro _ edit hedit
    rw [Leaf.item, edits_visit_leaf hl] at hedit
    contradiction

theorem fitsSlot (h : ∀ l ∈ c.leaf?, l.Sound) :
  e.FitsSlot pos (c.slot pos)
  := by
  intro i hi
  obtain ⟨l, hl, rfl⟩ := Option.map_eq_some_iff.mp hi
  exact fits_leaf (h l hl)

theorem fitsRow (h : ∀ l ∈ cells.leaves, l.Sound) :
  e.FitsRow pos (cells.row pos)
  := by
  induction cells generalizing pos with
  | last c => exact fitsSlot fun l hl => h l (Option.mem_toList.mpr hl)
  | cons c rest ih =>
      refine ⟨fitsSlot fun l hl => h l (List.mem_append_left _ (Option.mem_toList.mpr hl)), ?_⟩
      rw [text_slot]
      exact ih fun l hl => h l (List.mem_append_right _ hl)

theorem readable_row (h : ∀ f ∈ cells.fillers, f.Sound) :
  (cells.row pos).Readable [',']
  := by
  rw [← fillers_row cells pos] at h
  induction cells generalizing pos with
  | last c => exact Slot.readable_iff.mpr fun f hf => (h f hf).readable
  | cons c rest ih =>
      obtain ⟨hfirst, hrest⟩ := List.forall_mem_append.mp h
      exact ⟨Slot.readable_iff.mpr fun f hf => (hfirst f hf).readable, List.mem_singleton_self _,
        ih hrest⟩

/-- The places of a list in a text are a row of it. -/
theorem written (h : cells.Sound member holes) (hmember : ∀ l, member l → l.Sound)
    (htext : e.text = pre ++ (cells.text ++ post)) (hends : Ends [','] post) :
  e.Written .list pre (cells.row (byteLength pre)) post
  where
    text := by rw [htext, text_row]
    readable := readable_row h.fillers
    fits := fitsRow fun l hl => hmember l (h.members l hl)
    ends := hends

theorem Sound.of_last (h : (last c).Sound member holes) :
  (∀ f ∈ c.lead ++ c.trail, f.Sound) ∧ ∀ l ∈ c.leaf?, member l
  := ⟨h.fillers, fun l hl => h.members l (Option.mem_toList.mpr hl)⟩

theorem Sound.of_cons {rest : Cells} (h : (cons c rest).Sound member holes) :
  ((∀ f ∈ c.lead ++ c.trail, f.Sound) ∧ ∀ l ∈ c.leaf?, member l) ∧
    (c.leaf? = none → holes = true) ∧ rest.Sound member holes
  := by
  obtain ⟨hfillers, hmembers, hfull⟩ := h
  rw [Cells.fillers, row, Row.fillers, fillers_row, List.forall_mem_append] at hfillers
  rw [leaves, List.forall_mem_append] at hmembers
  refine ⟨⟨hfillers.1, fun l hl => hmembers.1 l (Option.mem_toList.mpr hl)⟩, ?_, hfillers.2,
    hmembers.2, fun hholes => (hfull hholes).2⟩
  intro hnone
  by_contra hholes
  have hsome := (hfull (Bool.eq_false_iff.mpr hholes)).1
  rw [hnone] at hsome
  contradiction

/-! ### The text of a list and its comments -/

/-- No carriage return stands in a place of a list. -/
theorem noReturn_cell (hfillers : ∀ f ∈ c.lead ++ c.trail, f.Sound)
    (hleaf : ∀ l ∈ c.leaf?, l.Sound) :
  '\r' ∉ c.text
  := by
  have hfillersText (fs : List Filler) (hfs : ∀ f ∈ fs, f.Sound) : '\r' ∉ fillersText fs := by
    intro hreturn
    obtain ⟨f, hf, hmem⟩ := List.mem_flatMap.mp hreturn
    exact (hfs f hf).noReturn hmem
  obtain ⟨hlead, htrail⟩ := List.forall_mem_append.mp hfillers
  have hcode : '\r' ∉ (c.leaf?.map Leaf.code).getD [] := by
    cases hl : c.leaf? with
    | none => exact List.not_mem_nil
    | some l => exact fun hreturn => absurd ((hleaf l hl).ink _ hreturn) (by decide)
  simp [Cell.text, hfillersText _ hlead, hfillersText _ htrail, hcode]

/-- No carriage return stands in a list. -/
theorem noReturn (h : cells.Sound member holes) (hmember : ∀ l, member l → l.Sound) :
  '\r' ∉ cells.text
  := by
  induction cells with
  | last c => exact noReturn_cell h.of_last.1 fun l hl => hmember l (h.of_last.2 l hl)
  | cons c rest ih =>
      obtain ⟨⟨hfillers, hleaf⟩, -, hrest⟩ := h.of_cons
      have hfirst := noReturn_cell hfillers fun l hl => hmember l (hleaf l hl)
      simp [text, hfirst, ih hrest]

/-- Comments among fillers move with them. -/
theorem fillersComments_move (n pos : Nat) (fs : List Filler) :
  fillersComments (n + pos) fs = (fillersComments pos fs).map (Comment.move n)
  := by
  induction fs generalizing pos with
  | nil => rfl
  | cons f fs ih =>
      rw [fillersComments, fillersComments, List.map_append, Nat.add_assoc, ih]
      cases f <;> simp [Filler.comment?, Filler.commentSpan, Comment.move, Span.move, Nat.add_assoc]

theorem slotComments_move (n pos m m' : Nat) (c : Cell) :
  (c.slot m).comments (n + pos) = ((c.slot m').comments pos).map (Comment.move n)
  := by
  have htext (m : Nat) :
      ((c.slot m).item?.map Item.text).getD [] = (c.leaf?.map Leaf.code).getD [] := by
    cases hl : c.leaf? <;> simp [Cell.slot, hl, Leaf.item]
  simp only [Slot.comments, htext, List.map_append, Nat.add_assoc]
  simp only [Cell.slot, fillersComments_move]

/-- The comments in a list move with it. -/
theorem comments_move (n pos : Nat) (cells : Cells) :
  cells.comments (n + pos) = (cells.comments pos).map (Comment.move n)
  := by
  induction cells generalizing pos with
  | last c => exact slotComments_move _ _ _ _ c
  | cons c rest ih =>
      have hrest := ih (pos + byteLength c.text + 1)
      simp only [comments, row, Row.comments, text_slot, List.map_append, Nat.add_assoc] at hrest ⊢
      rw [slotComments_move _ _ _ pos, hrest]

theorem comments_bounds (hk : k ∈ cells.comments pos) :
  pos ≤ k.span.lo ∧ k.span.lo < k.span.hi ∧ k.span.hi ≤ pos + byteLength cells.text
  := by
  rw [← text_row cells pos]
  exact Row.comments_bounds hk

/-- A comment in a list starts between characters of a text that the list stands in. -/
theorem boundary_comments {cs tail : List Char} (h : Stands cs (cells.text ++ tail) pos)
    (hk : k ∈ cells.comments pos) :
  Boundary cs k.span.lo
  := by
  induction cells generalizing pos with
  | last c =>
      rw [text, ← text_slot c pos] at h
      exact (Slot.boundary_comments h hk).1
  | cons c rest ih =>
      rw [text, List.append_assoc, List.cons_append, ← text_slot c pos] at h
      obtain hk | hk := List.mem_append.mp hk
      · exact (Slot.boundary_comments h hk).1
      · have hrest := h.append.cons
        rw [text_slot] at hk hrest
        exact ih hrest hk

/-! ### Members and holes -/

/-- The members and holes of a list are the elements of its row. -/
theorem map_element?_trees (h : ∀ l ∈ cells.leaves, l.Sound) :
  (cells.trees pos).map element? = elements (cells.row pos).places
  := by
  induction cells generalizing pos with
  | last c =>
      rw [trees, row, Row.places, elements]
      cases hleaf : c.leaf? with
      | none => simp [Cell.slot, hleaf]
      | some l =>
          have hl := h l (by simp [leaves, hleaf])
          simp [Cell.slot, hleaf, Leaf.item, element?, isHole_leaf hl]
  | cons c rest ih =>
      rw [trees, row, Row.places, elements_cons (places_ne_nil _), List.map_cons,
        ih fun l hl => h l (List.mem_append_right _ hl)]
      congr 1
      cases hleaf : c.leaf? with
      | none => simp [Cell.tree, Cell.slot, hleaf, element?, isHole, Tree.kind?]
      | some l =>
          have hl := h l (by simp [leaves, hleaf])
          simp [Cell.tree, Cell.slot, hleaf, Leaf.item, element?, isHole_leaf hl]

/-- An element of an array without its positions. -/
def elementShape (place : Option Tree) : Tree :=
  ((place.map Tree.shape).getD (.node .hole ⟨0, 0⟩ []))

/-- A tree in a list is a hole, or a member. -/
theorem mem_trees (h : t ∈ cells.trees pos) :
  (∃ span, t = .node .hole span []) ∨ ∃ l ∈ cells.leaves, ∃ n, t = l.tree n
  := by
  induction cells generalizing pos with
  | last c =>
      cases hleaf : c.leaf? with
      | none => simp [trees, Cell.slot, hleaf] at h
      | some l =>
          obtain rfl : t = _ := by simpa [trees, Cell.slot, hleaf, Leaf.item] using h
          exact .inr ⟨l, by simp [leaves, hleaf], _, rfl⟩
  | cons c rest ih =>
      obtain rfl | h := List.mem_cons.mp h
      · rw [Cell.tree]
        split
        · exact .inl ⟨_, rfl⟩
        · next l hleaf => exact .inr ⟨l, by simp [leaves, hleaf], _, rfl⟩
      · exact (ih h).imp_right fun ⟨l, hl, ht⟩ => ⟨l, List.mem_append_right _ hl, ht⟩

/-- Without positions, the trees of a list are its elements. -/
theorem shape_eq_elementShape (ht : (∃ span, t = .node .hole span []) ∨ isHole t = false) :
  t.shape = elementShape (element? t)
  := by
  obtain ⟨span, rfl⟩ | ht := ht
  · rfl
  · rw [element?, ht]
    rfl

theorem shapes_eq_map (items : List Tree) :
  Tree.shapes items = items.map Tree.shape
  := by
  induction items with
  | nil => rfl
  | cons t items ih => rw [Tree.shapes, ih, List.map_cons]

theorem shapes_trees (h : ∀ l ∈ cells.leaves, l.Sound) :
  Tree.shapes (cells.trees pos) = (elements (cells.row pos).places).map elementShape
  := by
  rw [← map_element?_trees h, List.map_map, shapes_eq_map]
  apply List.map_congr_left
  intro t ht
  apply shape_eq_elementShape
  refine (mem_trees ht).imp_right ?_
  rintro ⟨l, hl, n, rfl⟩
  exact isHole_leaf (h l hl)

/-- What is left of a list are its holes and the members that stay. -/
theorem shapes_pruneSeparated (h : ∀ l ∈ cells.leaves, l.Sound) :
  Tree.shapes (e.pruneSeparated (cells.trees pos))
    = ((elements (cells.row pos).places).filter e.stays).map elementShape
  := by
  rw [← map_element?_trees h]
  have hall : ∀ t ∈ cells.trees pos,
      (∃ span, t = .node .hole span []) ∨ isHole t = false ∧ e.prune t = some t := by
    intro t ht
    refine (mem_trees ht).imp_right ?_
    rintro ⟨l, hl, n, rfl⟩
    exact ⟨isHole_leaf (h l hl), prune_leaf (h l hl)⟩
  generalize cells.trees pos = items at *
  induction items with
  | nil =>
      rw [pruneSeparated]
      rfl
  | cons t items ih =>
      obtain ⟨ht, hitems⟩ := List.forall_mem_cons.mp hall
      have ih := ih hitems
      rw [pruneSeparated, List.map_cons, List.filter_cons]
      obtain ⟨span, rfl⟩ | ⟨hhole, hprune⟩ := ht
      · have hhole : isHole (.node .hole span []) = true := rfl
        rw [if_pos hhole, Tree.shapes, ih]
        rfl
      · have hshape := @shape_eq_elementShape t (.inr hhole)
        cases hgoes : e.excluded t.span with
        | true => simp [element?, hhole, hgoes, stays, ih]
        | false =>
            rw [element?, hhole] at hshape ⊢
            simp only [Bool.false_eq_true, if_false] at hshape ⊢
            simp [hprune, Tree.shapes, ih, stays, hgoes, hshape]

/-! ### What goes of a list -/

/-- The members of a list are those of its row. -/
theorem filter_trees (h : ∀ l ∈ cells.leaves, l.Sound) :
  (cells.trees pos).filter (fun t => !isHole t) = (cells.row pos).trees
  := by
  rw [← filterMap_element?, map_element?_trees h, filterMap_elements, Row.reduceOption_places]

/-- What goes of a list is what goes of its row. -/
theorem mem_edits_iff {edit : Edit} (h : ∀ l ∈ cells.leaves, l.Sound)
    (hwritten : e.Written .list pre (cells.row (byteLength pre)) post) :
  edit ∈ (e.visit "" (.series .list (cells.trees (byteLength pre)))).edits ↔
    edit ∈ e.rowEdits (byteLength pre) (cells.row (byteLength pre))
  := by
  have hvisit : e.visit "" (.series .list (cells.trees (byteLength pre)))
      = e.visitSeparated Rule.list.separators true (e.lastKept? (cells.row (byteLength pre)).trees)
        (cells.row (byteLength pre)).trees := by
    rw [visit, ← filter_trees h, ← visitSeparated_filter, ← lastKept?_filter]
    rfl
  rw [hvisit]
  exact ⟨fun hedit => (proper_of_mem_visitSeparated hwritten hedit).1,
    mem_visitSeparated_of_mem_rowEdits hwritten⟩

/-! ### Lists without holes -/

theorem full_iff (cells : Cells) (pos : Nat) :
  cells.Full ↔ ∀ place ∈ (cells.row pos).places.dropLast, place.isSome = true
  := by
  induction cells generalizing pos with
  | last c => simp [Full, row, Row.places]
  | cons c rest ih =>
      rw [Full, row, Row.places, List.dropLast_cons_of_ne_nil (places_ne_nil _),
        List.forall_mem_cons, ← ih]
      cases hleaf : c.leaf? <;> simp [Cell.slot, hleaf]

/-- Where a member stands in front of each comma, one does when members go. -/
theorem isSome_left (h : ∀ place ∈ places.dropLast, place.isSome = true) :
  ∀ place ∈ (e.left places).dropLast, place.isSome = true
  := by
  induction places with
  | nil => simp [left]
  | cons place places ih =>
      cases places with
      | nil => simp [left]
      | cons q places =>
          have hne : q :: places ≠ [] := by simp
          rw [List.dropLast_cons_of_ne_nil hne, List.forall_mem_cons] at h
          obtain ⟨t, rfl⟩ := Option.isSome_iff_exists.mp h.1
          have ih := ih h.2
          have hleft := left_ne_nil (e := e) hne
          rw [left_cons _ hne]
          generalize q :: places = others at *
          dsimp only
          cases hgoes : e.excluded t.span with
          | true => exact ih
          | false =>
              rw [if_neg Bool.false_ne_true]
              cases htail : e.tailGoes (others.filterMap id) with
              | true =>
                  -- all members behind go, so that one empty place is left of theirs
                  rw [tailGoes, Bool.and_eq_true] at htail
                  obtain ⟨rest, hrest⟩ := List.head?_eq_some_iff.mp (head?_left hne htail.2)
                  rw [hrest] at ih
                  cases rest with
                  | nil => simp [hrest]
                  | cons place rest => simp at ih
              | false =>
                  rw [if_neg Bool.false_ne_true, List.dropLast_cons_of_ne_nil hleft,
                    List.forall_mem_cons]
                  exact ⟨rfl, ih⟩

/-- Where a member stands in front of each comma, there are no holes. -/
theorem none_not_mem_elements (h : ∀ place ∈ places.dropLast, place.isSome = true) :
  none ∉ elements places
  := by
  induction places with
  | nil => simp [elements]
  | cons place places ih =>
      cases places with
      | nil => simp [elements]
      | cons q places =>
          have hne : q :: places ≠ [] := by simp
          rw [List.dropLast_cons_of_ne_nil hne, List.forall_mem_cons] at h
          obtain ⟨t, rfl⟩ := Option.isSome_iff_exists.mp h.1
          rw [elements_cons hne, List.mem_cons, not_or]
          exact ⟨by simp, ih h.2⟩

/-- A list without holes loses none. -/
theorem Full.not_losesHole (h : cells.Full) (pos : Nat) :
  ¬e.LosesHole (elements (cells.row pos).places)
  := by
  rintro ⟨front, t, back, heq, -, -, hmem⟩
  apply none_not_mem_elements ((full_iff cells pos).mp h)
  rw [heq]
  exact List.mem_append_right _ (List.mem_cons_of_mem _ hmem)

end Cells

/-- Where no list has holes, none loses any. -/
theorem Program.Full.keepsHoles {e : Elision} {p : Program} (h : p.Full) (pos : Nat) :
  p.KeepsHoles e pos
  := by
  induction p generalizing pos with
  | nil => trivial
  | blank indent next ih => exact ih h _
  | remark indent r next ih => exact ih h _
  | phrase indent s next ih => exact ih h _
  | compound indent f body foot next ihbody ih => exact ⟨ihbody h.1 _, ih h.2 _⟩
  | listing indent f cells next ih => exact ⟨h.1.not_losesHole _, ih h.2 _⟩

/-! ### What is left of a list -/

/-- The item of a row as a member of a list. -/
def Item.leaf (i : Item) : Leaf :=
  ⟨i.text, i.tree.kind?.getD .hole⟩

/-- A slot of a row as a place in a list. -/
def Slot.cell (s : Slot) : Cell :=
  ⟨s.lead, s.item?.map Item.leaf, s.trail⟩

/-- The slots of a row as the places of a list. -/
def Row.cells : Row → Cells
  | last s => .last s.cell
  | cons s _ rest => .cons s.cell rest.cells

namespace Row

variable {e : Elision} {edits : List Edit} {row : Row} {cells : Cells} {member : Leaf → Prop}
  {holes : Bool} {pos : Nat}

theorem text_cell (s : Slot) :
  s.cell.text = s.text
  := by
  rw [Slot.text, Cell.text, Slot.cell]
  cases s.item? <;> rfl

theorem text_cells (h : row.Readable [',']) :
  row.cells.text = row.text
  := by
  induction row with
  | last s => exact text_cell s
  | cons s c rest ih =>
      obtain ⟨-, hc, hrest⟩ := h
      rw [cells, Cells.text, text_cell, ih hrest, text, List.mem_singleton.mp hc]

theorem fillers_cells (row : Row) :
  row.cells.fillers = row.fillers
  := by
  suffices h : ∀ pos, (row.cells.row pos).fillers = row.fillers from h 0
  intro pos
  induction row generalizing pos with
  | last s => rfl
  | cons s c rest ih => exact congrArg (_ ++ ·) (ih _)

theorem leaves_cells (row : Row) :
  row.cells.leaves = row.items.map Item.leaf
  := by
  induction row with
  | last s => cases h : s.item? <;> simp [cells, Cells.leaves, Slot.cell, items, h]
  | cons s c rest ih => cases h : s.item? <;> simp [cells, Cells.leaves, Slot.cell, items, h, ih]

/-- As the places of a list, the slots of a row keep their members, but for the positions. -/
theorem shapes_places_cells (h : ∀ i ∈ row.items, ∃ l n, i = Leaf.item n l) (pos : Nat) :
  (row.cells.row pos).places.map (Option.map Tree.shape) = row.places.map (Option.map Tree.shape)
  := by
  have hslot (s : Slot) (n : Nat) (h : ∀ i ∈ s.item?, ∃ l n, i = Leaf.item n l) :
      ((s.cell.slot n).item?.map Item.tree).map Tree.shape
        = (s.item?.map Item.tree).map Tree.shape := by
    cases hitem : s.item? with
    | none => simp [Slot.cell, Cell.slot, hitem]
    | some i =>
        obtain ⟨l, m, rfl⟩ := h i hitem
        simp [Slot.cell, Cell.slot, hitem, Item.leaf, Leaf.item, Leaf.tree, Tree.kind?, Tree.shape]
  induction row generalizing pos with
  | last s =>
      have hs := hslot s pos fun i hi => h i (Option.mem_toList.mpr hi)
      simpa [cells, Cells.row, places] using hs
  | cons s c rest ih =>
      obtain ⟨hfirst, hrest⟩ := List.forall_mem_append.mp h
      rw [cells, Cells.row, places, places, List.map_cons, List.map_cons, ih hrest,
        hslot s pos fun i hi => hfirst i (Option.mem_toList.mpr hi)]

end Row

namespace Cells

variable {e : Elision} {edits : List Edit} {cells : Cells} {row : Row}
  {places places' : List (Option Tree)} {member : Leaf → Prop} {holes : Bool} {pos : Nat}

/-- The elements of an array without their positions depend on those of its places alone. -/
theorem map_elementShape_congr
    (h : places.map (Option.map Tree.shape) = places'.map (Option.map Tree.shape)) :
  (elements places).map elementShape = (elements places').map elementShape
  := by
  induction places generalizing places' with
  | nil =>
      obtain rfl := List.map_eq_nil_iff.mp h.symm
      rfl
  | cons place places ih =>
      cases places' with
      | nil => simp at h
      | cons place' places' =>
          obtain ⟨hplace, hrest⟩ := List.cons.inj h
          have hshape : elementShape place = elementShape place' := by
            rw [elementShape, hplace, elementShape]
          cases places with
          | nil =>
              obtain rfl := List.map_eq_nil_iff.mp hrest.symm
              cases place <;> cases place' <;> simp_all [elements]
          | cons q places =>
              have hne : places' ≠ [] := by
                rintro rfl
                simp at hrest
              rw [elements_cons (by simp), elements_cons hne, List.map_cons, List.map_cons, hshape,
                ih hrest]

theorem isSome_congr (h : places.map (Option.map Tree.shape) = places'.map (Option.map Tree.shape))
    (hsome : ∀ place ∈ places'.dropLast, place.isSome = true) :
  ∀ place ∈ places.dropLast, place.isSome = true
  := by
  have hiff (places : List (Option Tree)) :
      (∀ place ∈ places.dropLast, place.isSome = true) ↔
        ∀ place ∈ (places.map (Option.map Tree.shape)).dropLast, place.isSome = true := by
    rw [← List.map_dropLast, List.forall_mem_map]
    simp
  rw [hiff, h, ← hiff]
  exact hsome

/-- Members that are left as they are are the same items. -/
theorem eq_of_forall₂_remains {is' is : List Item} (h : List.Forall₂ (e.Remains edits) is' is)
    (hwhole : ∀ i ∈ is, ∀ i', e.Remains edits i' i → i'.text = i.text) :
  is' = is
  := by
  induction h with
  | nil => rfl
  | @cons i' i _ _ hremains _ ih =>
      obtain ⟨hi, his⟩ := List.forall_mem_cons.mp hwhole
      have htext := hi i' hremains
      have htree := hremains.tree
      rw [ih his]
      cases i
      cases i'
      simp_all

/-- What is left of the row of a list when members go, and of the comments between them some, are
the places of a list of what is left.  -/
theorem exists_left {row' : Row} (h : cells.Sound member holes) (hmember : ∀ l, member l → l.Sound)
    (hleft : e.LeftOf [','] edits (cells.row pos) row')
    (hwhole : ∀ i ∈ (cells.row pos).items, e.excluded i.tree.span = false →
      ∀ i', e.Remains edits i' i → i'.text = i.text)
    (hholes : ¬e.LosesHole (elements (cells.row pos).places)) :
  ∃ cells' : Cells, cells'.text = row'.text ∧ cells'.Sound member holes ∧
    ∀ pos', Tree.shapes (cells'.trees pos') = Tree.shapes (e.pruneSeparated (cells.trees pos))
  := by
  have hitems : row'.items = (cells.row pos).items.filter fun i => !e.excluded i.tree.span := by
    apply eq_of_forall₂_remains hleft.items
    intro i hi
    rw [List.mem_filter, Bool.not_eq_true'] at hi
    exact hwhole i hi.1 hi.2
  have hleaf : ∀ i ∈ row'.items, ∃ l ∈ cells.leaves, ∃ n, i = l.item n := by
    intro i hi
    rw [hitems] at hi
    exact exists_leaf_of_mem_items (List.mem_of_mem_filter hi)
  have hplaces := Row.shapes_places_cells fun i hi => (hleaf i hi).imp fun _ h => h.2
  have hsound : row'.cells.Sound member holes := by
    constructor
    · intro f hf
      rw [Row.fillers_cells] at hf
      obtain hf | rfl := hleft.fillers f hf
      · rw [fillers_row] at hf
        exact h.fillers f hf
      · exact .inr (.inr rfl)
    · intro l hl
      rw [Row.leaves_cells] at hl
      obtain ⟨i, hi, rfl⟩ := List.mem_map.mp hl
      obtain ⟨l, hmem, n, rfl⟩ := hleaf i hi
      exact h.members l hmem
    · intro hnone
      rw [full_iff _ 0]
      apply isSome_congr (hplaces 0)
      rw [hleft.places]
      exact isSome_left ((full_iff cells pos).mp (h.full hnone))
  use row'.cells, Row.text_cells hleft.readable, hsound
  intro pos'
  rw [shapes_trees fun l hl => hmember l (hsound.members l hl),
    map_elementShape_congr (hplaces pos'), hleft.places, (elements_left (places_ne_nil _)).2 hholes,
    shapes_pruneSeparated fun l hl => hmember l (h.members l hl)]

end Cells

end Prune
