import Mathlib.Tactic.MkIffOfInductiveProp
import Prune.Proofs.Elision.Elements

/-!
# Parts that stand apart

What a walk relies on about the places of the parts of a syntax tree (`Source.Tree.Parted`): that they
do not overlap, that a member of a series holds what is below it, and that an element starts and ends
with the marks of its tags.  Whether a tree is so can be computed.
-/

namespace Prune

open Text Source

namespace Text

variable {text : List Char} {pos : Nat} {c : Char}

/-- The characters that stand in a text are those with their offsets. -/
theorem charAt_iff_mem_located :
  CharAt text pos c ↔ (pos, c) ∈ located 0 text
  := by
  constructor
  · rintro ⟨rest, pre, rfl, rfl⟩
    rw [located_append, Nat.zero_add]
    exact List.mem_append_right _ List.mem_cons_self
  · exact fun h => charAt_of_mem_located (.zero text) h

instance : Decidable (CharAt text pos c) :=
  decidable_of_iff _ charAt_iff_mem_located.symm

/-- Whether a character that is no blank stands at an offset. -/
def InkAt (text : List Char) (pos : Nat) : Prop :=
  ∃ c, CharAt text pos c ∧ isBlank c = false

instance : Decidable (InkAt text pos) :=
  decidable_of_iff (∃ p ∈ located 0 text, p.1 = pos ∧ isBlank p.2 = false) <| by
    simp only [InkAt, charAt_iff_mem_located]
    constructor
    · rintro ⟨⟨_, c⟩, hmem, rfl, hblank⟩
      exact ⟨c, hmem, hblank⟩
    · rintro ⟨c, hmem, hblank⟩
      exact ⟨(pos, c), hmem, rfl, hblank⟩

end Text

namespace Source.Span

/-- Whether two spans have no byte in common. -/
def Apart (s t : Span) : Prop :=
  ∀ pos, s.Has pos → ¬t.Has pos

/-- Whether all bytes of a span are bytes of another. -/
def Within (s t : Span) : Prop :=
  ∀ pos, s.Has pos → t.Has pos

variable {s t : Span}

instance (s : Span) (pos : Nat) : Decidable (s.Has pos) :=
  inferInstanceAs (Decidable (_ ∧ _))

/-- Of two spans that have no byte in common, one lies before the other if both have any. -/
theorem Apart.le_or_le (h : s.Apart t) (hs : s.lo < s.hi) (ht : t.lo < t.hi) :
  s.hi ≤ t.lo ∨ t.hi ≤ s.lo
  := by
  by_contra hnot
  exact h (max s.lo t.lo) ⟨by omega, by omega⟩ ⟨by omega, by omega⟩

theorem apart_iff :
  s.Apart t ↔ s.lo < s.hi → t.lo < t.hi → s.hi ≤ t.lo ∨ t.hi ≤ s.lo
  := by
  refine ⟨Apart.le_or_le, fun h pos hs ht => ?_⟩
  obtain ⟨hs, hs'⟩ := hs
  obtain ⟨ht, ht'⟩ := ht
  have := h (by omega) (by omega)
  omega

/-- A span in another starts and ends where this does, or in between. -/
theorem Within.le_and_le (h : s.Within t) (hs : s.lo < s.hi) :
  t.lo ≤ s.lo ∧ s.hi ≤ t.hi
  := by
  have hlo := h s.lo ⟨Nat.le_refl _, hs⟩
  have hhi := h (s.hi - 1) ⟨by omega, by omega⟩
  have := hlo.1
  have := hhi.2
  omega

theorem within_iff :
  s.Within t ↔ s.lo < s.hi → t.lo ≤ s.lo ∧ s.hi ≤ t.hi
  := by
  refine ⟨Within.le_and_le, fun h pos hs => ?_⟩
  obtain ⟨hs, hs'⟩ := hs
  have := h (by omega)
  exact ⟨by omega, by omega⟩

instance : Decidable (s.Apart t) := decidable_of_iff _ apart_iff.symm

instance : Decidable (s.Within t) := decidable_of_iff _ within_iff.symm

/-- Whether a span starts and ends with the marks of tags, which belong to no comment. -/
@[mk_iff] structure Edged (text : List Char) (comments : List Comment) (s : Span) : Prop where
  lt : s.lo < s.hi
  first : CharAt text s.lo '<'
  last : CharAt text (s.hi - 1) '>'
  free : ∀ c ∈ comments, ¬c.span.Has s.lo ∧ ¬c.span.Has (s.hi - 1)

instance (text : List Char) (comments : List Comment) (s : Span) :
    Decidable (s.Edged text comments) :=
  decidable_of_iff _ (edged_iff text comments s).symm

/-- What stands between the marks of tags starts with a character that is no blank. -/
theorem Edged.inked {text : List Char} {comments : List Comment} (h : s.Edged text comments)
    (r : String) :
  (⟨s.lo, s.hi, r⟩ : Edit).Inked text
  := fun _ => ⟨h.lt, '<', h.first, rfl⟩

end Source.Span

namespace Source.Tree

/-! ### All trees below a tree -/

mutual

/-- The trees below a tree, the tree itself first. -/
def subtrees : Tree → List Tree
  | .node kind span parts => .node kind span parts :: subtreesAll parts
  | .series rule items => .series rule items :: subtreesAll items

/-- The trees below some trees. -/
def subtreesAll : List Tree → List Tree
  | [] => []
  | t :: ts => subtrees t ++ subtreesAll ts

end

variable {text : List Char} {comments : List Comment} {root s t u a b : Tree}

theorem mem_subtreesAll_iff {ts : List Tree} :
  s ∈ subtreesAll ts ↔ ∃ t ∈ ts, s ∈ t.subtrees
  := by
  induction ts with
  | nil => simp [subtreesAll]
  | cons t ts ih => simp [subtreesAll, ih]

theorem subtrees_eq (t : Tree) :
  t.subtrees = t :: subtreesAll t.parts
  := by
  cases t <;> rw [subtrees, parts]

/-- What is below a tree is the tree, or is below a part of it. -/
theorem Below.cases_parts (h : t.Below s) :
  s = t ∨ ∃ p ∈ t.parts, p.Below s
  := by
  induction h with
  | root => exact .inl rfl
  | part _ hs ih =>
      obtain rfl | ⟨p, hp, h⟩ := ih
      · exact .inr ⟨_, hs, .root⟩
      · exact .inr ⟨p, hp, .part h hs⟩

theorem mem_subtrees_iff :
  s ∈ t.subtrees ↔ t.Below s
  := by
  induction t using Source.Tree.induction with
  | h t ih =>
      rw [subtrees_eq, List.mem_cons, mem_subtreesAll_iff]
      constructor
      · rintro (rfl | ⟨p, hp, hs⟩)
        · exact .root
        · exact .of_part hp ((ih p (Source.Tree.sizeOf_lt_of_mem_parts hp)).mp hs)
      · intro hs
        obtain rfl | ⟨p, hp, hs⟩ := hs.cases_parts
        · exact .inl rfl
        · exact .inr ⟨p, hp, (ih p (Source.Tree.sizeOf_lt_of_mem_parts hp)).mpr hs⟩

/-- What holds of all that is below a tree can be found out if it can be of each tree. -/
instance {P : Tree → Prop} [DecidablePred P] : Decidable (∀ s, t.Below s → P s) :=
  decidable_of_iff (∀ s ∈ t.subtrees, P s) (by simp only [mem_subtrees_iff])

theorem Below.trans (ht : root.Below t) (hs : t.Below s) :
  root.Below s
  := by
  induction hs with
  | root => exact ht
  | part _ hs ih => exact .part ih hs

/-! ### Trees with parts that stand apart -/

/-- The rule of a series. -/
def rule? : Tree → Option Rule
  | node _ _ _ => none
  | series rule _ => some rule

/-- Whether nothing below one tree has a byte in common with anything below another. -/
def Clear (a b : Tree) : Prop :=
  ∀ s, a.Below s → ∀ t, b.Below t → s.span.Apart t.span

/-- Whether all that is below a tree lies inside of it. -/
def Encloses (t : Tree) : Prop :=
  ∀ s, t.Below s → s.span.Within t.span

/-- Whether no member of a separated series lies at the very end of a tree. -/
def Closed (t : Tree) : Prop :=
  ∀ s, t.Below s → s.rule?.any Rule.isSeparated = true →
    ∀ m ∈ s.parts, Elision.isHole m = false → m.span.hi < t.span.hi

/-- Whether the parts of a tree, and of all trees below it, stand apart from each other. -/
@[mk_iff] structure Parted (text : List Char) (comments : List Comment) (root : Tree) : Prop where
  /-- No two parts of a node, and no two members of a series, overlap. -/
  clear : ∀ t, root.Below t → t.parts.Pairwise Clear
  /-- A member that may stand in front of a separator takes bytes and holds all that is below it. -/
  members : ∀ t, root.Below t → t.rule?.any Rule.isSeparated = true →
    ∀ m ∈ t.parts, Elision.isHole m = false → m.span.lo < m.span.hi ∧ m.Encloses
  /-- A lone statement starts with a character that is no blank. -/
  lone : ∀ t, root.Below t → t.rule? = some .lone →
    ∀ m ∈ t.parts, m.span.lo < m.span.hi ∧ InkAt text m.span.lo
  /-- An element starts and ends with the marks of its tags, and holds all that is below it. -/
  frames : ∀ t, root.Below t → t.kind?.any Kind.isFrame = true →
    t.span.Edged text comments ∧ t.Encloses ∧ t.Closed
  /-- The elements among the children of an element are no values of attributes. -/
  children : Elision.Childlike root

instance : DecidableRel Clear := fun a b =>
  inferInstanceAs (Decidable (∀ s, a.Below s → ∀ t, b.Below t → s.span.Apart t.span))

instance (t : Tree) : Decidable t.Encloses :=
  inferInstanceAs (Decidable (∀ s, t.Below s → s.span.Within t.span))

instance (t : Tree) : Decidable t.Closed :=
  inferInstanceAs (Decidable (∀ s, t.Below s → s.rule?.any Rule.isSeparated = true →
    ∀ m ∈ s.parts, Elision.isHole m = false → m.span.hi < t.span.hi))

instance (t : Tree) : Decidable (Elision.Childlike t) :=
  inferInstanceAs (Decidable (∀ s, t.Below s → ∀ child ∈ Elision.childrenOf s.parts,
    Elision.isElement child = true → Elision.isVisited child = true))

instance (text : List Char) (comments : List Comment) (t : Tree) :
    Decidable (t.Parted text comments) :=
  decidable_of_iff _ (parted_iff text comments t).symm

theorem Clear.symm (h : a.Clear b) :
  b.Clear a
  := fun s hs t ht pos hpos hpos' => h t ht s hs pos hpos' hpos

theorem Parted.of_below (h : root.Parted text comments) (ht : root.Below t) :
  t.Parted text comments
  where
  clear u hu := h.clear u (ht.trans hu)
  members u hu := h.members u (ht.trans hu)
  lone u hu := h.lone u (ht.trans hu)
  frames u hu := h.frames u (ht.trans hu)
  children := h.children.of_below ht

theorem Parted.of_mem_parts (h : root.Parted text comments) (ht : t ∈ root.parts) :
  t.Parted text comments
  := h.of_below (.part .root ht)

/-- The marks at the ends of an element. -/
theorem Parted.edged (h : root.Parted text comments) (ht : root.Below t)
    (hvisited : Elision.isVisited t = true) :
  t.span.Edged text comments ∧ t.Encloses ∧ t.Closed
  := by
  obtain ⟨place, span, parts, rfl, -⟩ := Elision.exists_of_isVisited hvisited
  exact h.frames _ ht rfl

end Source.Tree

end Prune
