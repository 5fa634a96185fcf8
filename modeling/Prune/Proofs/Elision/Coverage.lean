import Mathlib.Data.List.Basic
import Mathlib.Data.List.Pairwise
import Prune.Proofs.Elision.Deletions

/-!
# What is deleted

All that is due to go (`Elision.Due`) goes: members of series and markup whose lines lie in one
range, wherever they stand below the root.  Two things are spared (`Elision.Spares`).  When all
variables of a declaration are due, none of them goes as long as nothing around the declaration does.
And the decorators of an exported class may stand in front of it, and stay when it goes.

A walk stops at what goes, so that the edits must cover all that lies inside of it; this is what
trees being laid out gives (`Elision.Due.bounded`).
-/

namespace Prune

open Text Source

/-- What lies in a decorator in front of the class it belongs to, somewhere below a tree. -/
inductive Source.Tree.Astray : Tree → Tree → Prop where
  | decorator {kind : Kind} {span : Span} {parts : List Tree} {p t : Tree} (hp : p ∈ parts)
      (hstray : p.Stray kind span) (h : p.Below t) : Astray (.node kind span parts) t
  | part {u p t : Tree} (hp : p ∈ u.parts) (h : Astray p t) : Astray u t

theorem Source.Tree.Below.of_part {u p t : Tree} (hp : p ∈ u.parts) (h : p.Below t) :
  u.Below t
  := by
  induction h with
  | root => exact .part .root hp
  | part _ hs ih => exact .part ih hs

theorem Source.Tree.sizeOf_lt_of_mem_parts {p t : Tree} (hp : p ∈ t.parts) :
  sizeOf p < sizeOf t
  := by
  cases t with
  | node kind span parts =>
      have := List.sizeOf_lt_of_mem hp
      simp only [Source.Tree.parts, Source.Tree.node.sizeOf_spec] at *
      omega
  | series rule items =>
      have := List.sizeOf_lt_of_mem hp
      simp only [Source.Tree.parts, Source.Tree.series.sizeOf_spec] at *
      omega

/-- Whether markup stands where an expression may stand. -/
def Source.Kind.isExpressionFrame : Kind → Bool
  | .element .expression | .fragment .expression => true
  | _ => false

theorem Source.Tree.Bounded.self {kind : Kind} {span : Span} {parts : List Tree} {lo hi : Nat}
    (h : (Source.Tree.node kind span parts).Bounded lo hi) :
  (Source.Tree.node kind span parts).Bounded span.lo span.hi
  := by
  cases h with
  | node hle _ => exact .node hle fun _ => ⟨Nat.le_refl _, Nat.le_refl _⟩

namespace Elision

/-- What is due to go inside of a tree: the members of series and the markup where an expression may
stand all lines of which lie in one range. -/
inductive Due (e : Elision) : Tree → Tree → Prop where
  | item {rule : Rule} {items : List Tree} {t : Tree} (ht : t ∈ items) (hhole : isHole t = false)
      (hgoes : e.excluded t.span = true) : Due e (.series rule items) t
  | frame {kind : Kind} {span : Span} {parts : List Tree} (hkind : kind.isExpressionFrame = true)
      (hgoes : e.excluded span = true) : Due e (.node kind span parts) (.node kind span parts)
  | node {kind : Kind} {span : Span} {parts : List Tree} {p t : Tree} (hp : p ∈ parts)
      (h : Due e p t) : Due e (.node kind span parts) t
  | series {rule : Rule} {items : List Tree} {p t : Tree} (hp : p ∈ items)
      (hhole : isHole p = false) (h : Due e p t) : Due e (.series rule items) t

/-- Whether a member of a series goes: all its lines lie in one range, or it is braces that hold
directives and no other comment. -/
def Goes (e : Elision) (t : Tree) : Prop :=
  e.excluded t.span = true ∨ isEmptyContainer t = true ∧ e.holdsDirectives t.span = true

/-- What is spared inside of a tree: the variables of a declaration all of which are due, and what
lies inside of them, when nothing around the declaration goes; and what lies in a decorator in front
of a class, when the class or something around it goes. -/
inductive Spares (e : Elision) : Tree → Tree → Prop where
  | declarator {items : List Tree} {d t : Tree} (hall : items.all e.goesOrHole = true)
      (hd : d ∈ items) (ht : d.Below t) : Spares e (.series .declarators items) t
  | item {rule : Rule} {items : List Tree} {p t : Tree} (hp : p ∈ items) (hgoes : e.Goes p)
      (h : p.Astray t) : Spares e (.series rule items) t
  | frame {kind : Kind} {span : Span} {parts : List Tree} {t : Tree}
      (hgoes : e.excluded span = true ∨ e.straddles parts = true)
      (h : (Source.Tree.node kind span parts).Astray t) : Spares e (.node kind span parts) t
  | node {kind : Kind} {span : Span} {parts : List Tree} {p t : Tree}
      (hstays : kind.isExpressionFrame = true → e.excluded span = false) (hp : p ∈ parts)
      (h : Spares e p t) : Spares e (.node kind span parts) t
  | series {rule : Rule} {items : List Tree} {p t : Tree} (hp : p ∈ items)
      (hstays : e.excluded p.span = false) (h : Spares e p t) : Spares e (.series rule items) t

variable {e : Elision} {p t u : Tree} {items : List Tree} {rule : Rule} {r : String}
  {comments : List Comment} {lo hi : Nat}

theorem below_of_due (h : e.Due u t) :
  u.Below t
  := by
  induction h with
  | item ht _ _ => exact .part .root ht
  | frame _ _ => exact .root
  | node hp _ ih => exact .of_part hp ih
  | series hp _ _ ih => exact .of_part hp ih

/-- What is due inside of a tree lies where the tree lies, decorators in front of what they belong
to apart. -/
theorem Due.bounded (h : e.Due u t) (hlaid : u.Laid e.text comments) (hu : u.Bounded lo hi) :
  t.Bounded lo hi ∨ u.Astray t
  := by
  induction h with
  | item ht _ _ =>
      cases hu with
      | series hitems => exact .inl (hitems _ ht)
  | frame _ _ => exact .inl hu
  | @node kind span parts p t hp h ih =>
      cases hlaid with
      | node hparts hbounded _ =>
          cases hu with
          | node hle hin =>
              obtain hp' | hstray := hbounded p hp
              · -- inside of what takes no bytes, nothing takes any
                have hp' : p.Bounded lo hi := by
                  by_cases hlt : span.lo < span.hi
                  · exact hp'.mono (hin hlt).1 (hin hlt).2
                  · exact hp'.of_le (by omega)
                exact (ih (hparts p hp) hp').imp_right (.part hp)
              · exact .inr (.decorator hp hstray (below_of_due h))
  | @series rule items p t hp _ _ ih =>
      cases hlaid with
      | series hitems _ _ =>
          cases hu with
          | series hitems' => exact (ih (hitems _ hp) (hitems' _ hp)).imp_right (.part hp)

/-! ### Members of series -/

/-- Whether some edits take out a tree. -/
def Covered (edits : List Edit) (t : Tree) : Prop :=
  ∀ pos, t.span.Has pos → ∃ edit ∈ edits, edit.Covers pos

/-- Whether a member of a series goes with all it holds, or stays and is walked through, in a search
that finds `found`. -/
def Handled (e : Elision) (found : Found) (t : Tree) : Prop :=
  (e.Goes t ∧ ∃ edit ∈ found.edits, edit.lo ≤ t.span.lo ∧ t.span.hi ≤ edit.hi) ∨
    e.excluded t.span = false ∧ ∃ r, (e.visit r t).edits ⊆ found.edits

variable {a b : Found}

theorem Handled.left (h : e.Handled a t) :
  e.Handled (a ++ b) t
  := by
  obtain ⟨hgoes, edit, hedit, h⟩ | ⟨hstays, r, hsubset⟩ := h
  · exact .inl ⟨hgoes, edit, by simp [hedit], h⟩
  · refine .inr ⟨hstays, r, List.Subset.trans hsubset ?_⟩
    rw [edits_append]
    exact List.subset_append_left _ _

theorem Handled.right (h : e.Handled b t) :
  e.Handled (a ++ b) t
  := by
  obtain ⟨hgoes, edit, hedit, h⟩ | ⟨hstays, r, hsubset⟩ := h
  · exact .inl ⟨hgoes, edit, by simp [hedit], h⟩
  · refine .inr ⟨hstays, r, List.Subset.trans hsubset ?_⟩
    rw [edits_append]
    exact List.subset_append_right _ _

theorem Handled.gone (hgoes : e.excluded t.span = true) (r : String) :
  e.Handled (gone t.span r) t
  := .inl ⟨.inl hgoes, _, List.mem_singleton_self _, Nat.le_refl _, Nat.le_refl _⟩

theorem Handled.visit (hstays : ¬e.excluded t.span = true) (r : String) :
  e.Handled (e.visit r t) t
  := .inr ⟨by simpa using hstays, r, List.Subset.refl _⟩

theorem Handled.goneWithSeparator {separators : List Char} (hhi : Boundary e.text t.span.hi)
    (hgoes : e.excluded t.span = true) :
  e.Handled (e.goneWithSeparator separators t.span) t
  := by
  rw [Elision.goneWithSeparator]
  split
  · next sep hsep =>
    obtain ⟨hle, -⟩ := charAt_separatorAfter hhi hsep
    exact .inl ⟨.inl hgoes, _, List.mem_singleton_self _, Nat.le_refl _, by simp only; omega⟩
  · exact .gone hgoes ""

theorem handled_visitBlock (ht : t ∈ items) :
  e.Handled (e.visitBlock items) t
  := by
  induction items with
  | nil => simp at ht
  | cons first items ih =>
      rw [visitBlock]
      obtain rfl | ht := List.mem_cons.mp ht
      · apply Handled.left
        split
        · next hgoes => exact .gone hgoes ""
        · next hstays => exact .visit hstays "null"
      · exact (ih ht).right

theorem handled_visitLone (ht : t ∈ items) :
  e.Handled (e.visitLone items) t
  := by
  induction items with
  | nil => simp at ht
  | cons first items ih =>
      rw [visitLone]
      obtain rfl | ht := List.mem_cons.mp ht
      · apply Handled.left
        split
        · next hgoes => exact .gone hgoes _
        · next hstays => exact .visit hstays "null"
      · exact (ih ht).right

theorem handled_visitChildren (ht : t ∈ items) :
  e.Handled (e.visitChildren items) t
  := by
  induction items with
  | nil => simp at ht
  | cons first items ih =>
      rw [visitChildren]
      obtain rfl | ht := List.mem_cons.mp ht
      · apply Handled.left
        split
        · next hgoes => exact .gone hgoes ""
        · next hstays =>
          split
          · next hcontainer =>
            rw [Bool.and_eq_true] at hcontainer
            exact .inl ⟨.inr hcontainer, _, List.mem_singleton_self _, Nat.le_refl _,
              Nat.le_refl _⟩
          · exact .visit hstays ""
      · exact (ih ht).right

theorem handled_visitSeparated {separators : List Char} {tidy : Bool} {kept : Option Span}
    (ht : t ∈ items) (hhole : isHole t = false) (hhi : Boundary e.text t.span.hi) :
  e.Handled (e.visitSeparated separators tidy kept items) t
  := by
  induction items with
  | nil => simp at ht
  | cons first items ih =>
      rw [visitSeparated]
      obtain rfl | ht := List.mem_cons.mp ht
      · apply Handled.left
        rw [if_neg (by simp [hhole])]
        split
        · next hgoes => exact (Handled.goneWithSeparator hhi hgoes).left
        · next hstays => exact .visit hstays "null"
      · exact (ih ht).right

/-- Every member of a series that is not spared goes or is walked through. -/
theorem handled_series (ht : t ∈ items) (hhole : isHole t = false)
    (hhi : Boundary e.text t.span.hi)
    (hall : rule = .declarators → items.all e.goesOrHole = false) :
  e.Handled (e.visit r (.series rule items)) t
  := by
  cases rule with
  | block =>
      simp only [visit]
      exact handled_visitBlock ht
  | lone =>
      simp only [visit]
      exact handled_visitLone ht
  | list | members =>
      simp only [visit]
      exact handled_visitSeparated ht hhole hhi
  | declarators =>
      simp only [visit, hall rfl, Bool.false_eq_true, if_false]
      exact handled_visitSeparated ht hhole hhi
  | children =>
      simp only [visit]
      exact handled_visitChildren ht

/-! ### Elements that collapse -/

theorem subset_visitAll {parts : List Tree} (hp : p ∈ parts) :
  (e.visit "null" p).edits ⊆ (e.visitAll parts).edits
  := by
  induction parts with
  | nil => simp at hp
  | cons first parts ih =>
      rw [visitAll, edits_append]
      obtain rfl | hp := List.mem_cons.mp hp
      · exact List.subset_append_left _ _
      · exact List.Subset.trans (ih hp) (List.subset_append_right _ _)

theorem subset_visitSurvivor (ht : t ∈ items) (hsurvives : e.survives t = true) :
  (e.visit r t).edits ⊆ (e.visitSurvivor r items).edits
  := by
  induction items with
  | nil => simp at ht
  | cons first items ih =>
      rw [visitSurvivor, edits_append]
      obtain rfl | ht := List.mem_cons.mp ht
      · rw [if_pos hsurvives]
        exact List.subset_append_left _ _
      · exact List.Subset.trans (ih ht) (List.subset_append_right _ _)

theorem subset_visitSurvivors {parts : List Tree} (hp : .series .children items ∈ parts)
    (ht : t ∈ items) (hsurvives : e.survives t = true) :
  (e.visit r t).edits ⊆ (e.visitSurvivors r parts).edits
  := by
  induction parts with
  | nil => simp at hp
  | cons first parts ih =>
      obtain rfl | hp := List.mem_cons.mp hp
      · rw [visitSurvivors, edits_append]
        exact List.Subset.trans (subset_visitSurvivor ht hsurvives) (List.subset_append_left _ _)
      · have hrest := ih hp
        cases first with
        | node kind span parts => simpa only [visitSurvivors] using hrest
        | series rule items' =>
            cases rule with
            | children =>
                rw [visitSurvivors, edits_append]
                exact List.Subset.trans hrest (List.subset_append_right _ _)
            | _ => simpa only [visitSurvivors] using hrest

/-- What comes of a node: its parts are walked through, it goes, or a child takes its place. -/
theorem visit_node_cases (e : Elision) (r : String) (kind : Kind) (span : Span)
    (parts : List Tree) :
  (e.visit r (.node kind span parts) = e.visitAll parts ∧
      (kind.isExpressionFrame = true → e.excluded span = false)) ∨
    (e.visit r (.node kind span parts) = gone span r ∧
      (e.excluded span = true ∨ e.straddles parts = true)) ∨
    ∃ place child, kind = .element place ∧ e.excluded span = false ∧ e.straddles parts = true ∧
      child ∈ childrenOf parts ∧ e.survives child = true ∧
      e.visit r (.node kind span parts) = splice span child.span ++ e.visitSurvivors r parts
  := by
  cases kind with
  | element place =>
      by_cases hplace : place = .attribute
      · subst hplace
        exact .inl ⟨by simp only [visit], by simp [Kind.isExpressionFrame]⟩
      · rw [visit.eq_2 _ _ _ _ _ hplace]
        split
        · next hgoes => exact .inr (.inl ⟨rfl, .inl hgoes⟩)
        · next hstays =>
          have hstays : e.excluded span = false := by simpa using hstays
          split
          · next hstraddles =>
            split
            · next child hfilter =>
              have hmem : child ∈ (childrenOf parts).filter e.survives := by simp [hfilter]
              obtain ⟨hchild, hsurvives⟩ := List.mem_filter.mp hmem
              exact .inr (.inr ⟨place, child, rfl, hstays, hstraddles, hchild, hsurvives, rfl⟩)
            · exact .inr (.inl ⟨rfl, .inr hstraddles⟩)
          · exact .inl ⟨rfl, fun _ => hstays⟩
  | fragment place =>
      cases place with
      | expression =>
          simp only [visit]
          split
          · next hgoes => exact .inr (.inl ⟨rfl, .inl hgoes⟩)
          · next hstays => exact .inl ⟨rfl, fun _ => by simpa using hstays⟩
      | _ => exact .inl ⟨by simp only [visit], by simp [Kind.isExpressionFrame]⟩
  | _ => exact .inl ⟨by simp only [visit], by simp [Kind.isExpressionFrame]⟩

/-! ### Walks -/

variable {edits : List Edit} {edit : Edit}

theorem Covered.of_bounded (h : t.Bounded lo hi) (hedit : edit ∈ edits) (hlo : edit.lo ≤ lo)
    (hhi : hi ≤ edit.hi) :
  Covered edits t
  := by
  intro pos ⟨hpos, hpos'⟩
  obtain ⟨hlo', hhi'⟩ := h.of_lt (by omega)
  exact ⟨edit, hedit, by omega, by omega⟩

/-- The children of an element stand among its parts. -/
theorem mem_childrenOf {parts : List Tree} (h : t ∈ childrenOf parts) :
  ∃ items, .series .children items ∈ parts ∧ t ∈ items
  := by
  obtain ⟨p, hp, ht⟩ := List.mem_flatMap.mp h
  cases p with
  | node kind span parts => simp at ht
  | series rule items =>
      cases rule with
      | children => exact ⟨items, hp, ht⟩
      | _ => simp at ht

/-- What lies inside of a member or a tag of an element, but not inside of the child that takes the
place of the element, goes. -/
theorem covered_of_splice {span : Span} {parts : List Tree} {q child : Tree}
    (hordered : Tree.Ordered (parts.flatMap Grammar.flatten))
    (hq : q ∈ parts.flatMap Grammar.flatten) (hchild : child ∈ parts.flatMap Grammar.flatten)
    (hne : q ≠ child) (hspan : t.Bounded span.lo span.hi) (ht : t.Bounded q.span.lo q.span.hi)
    (hedits : (splice span child.span).edits ⊆ edits) :
  Covered edits t
  := by
  intro pos ⟨hlo, hhi⟩
  have hlt : t.span.lo < t.span.hi := by omega
  obtain ⟨hlo', hhi'⟩ := hspan.of_lt hlt
  obtain ⟨hlo'', hhi''⟩ := ht.of_lt hlt
  have hapart : (parts.flatMap Grammar.flatten).Pairwise
      fun a b => a.span.hi ≤ b.span.lo ∨ b.span.hi ≤ a.span.lo :=
    hordered.imp .inl
  have : Std.Symm fun a b : Tree => a.span.hi ≤ b.span.lo ∨ b.span.hi ≤ a.span.lo :=
    ⟨fun _ _ => Or.symm⟩
  obtain h | h := hapart.forall hq hchild hne
  · exact ⟨⟨span.lo, child.span.lo, ""⟩, hedits (by simp [splice]), by simp only; omega,
      by simp only; omega⟩
  · exact ⟨⟨child.span.hi, span.hi, ""⟩, hedits (by simp [splice]), by simp only; omega,
      by simp only; omega⟩

/-- A node lies where it lies. -/
theorem bounded_self {text : List Char} (h : t.Placed text) :
  t.Bounded t.span.lo t.span.hi
  := by
  obtain ⟨hnode, hle, -⟩ := h
  cases t with
  | node kind span parts => exact (Tree.Bounded.node hle fun _ => ⟨Nat.zero_le _, Nat.le_refl _⟩).self
  | series => simp [Tree.kind?] at hnode

theorem excluded_of_survives (h : e.survives t = true) :
  e.excluded t.span = false
  := by
  rw [survives, Bool.and_eq_true, Bool.not_eq_true'] at h
  exact h.2

/-- What is due inside of a member of a series that goes, goes or is spared. -/
theorem covered_or_spares_item (hp : p ∈ items) (hplaced : p.Placed e.text)
    (hlaid : p.Laid e.text comments) (hgoes : e.Goes p) (hdue : e.Due p t) (hedit : edit ∈ edits)
    (hlo : edit.lo ≤ p.span.lo) (hhi : p.span.hi ≤ edit.hi) :
  Covered edits t ∨ e.Spares (.series rule items) t
  := by
  obtain h | h := hdue.bounded hlaid (bounded_self hplaced)
  · exact .inl (.of_bounded h hedit hlo hhi)
  · exact .inr (.item hp hgoes h)

/-- What is due inside of markup that goes, goes or is spared. -/
theorem covered_or_spares_frame {kind : Kind} {span : Span} {parts : List Tree}
    (hlaid : (Source.Tree.node kind span parts).Laid e.text comments)
    (hgoes : e.excluded span = true ∨ e.straddles parts = true) (hp : p ∈ parts)
    (hdue : e.Due p t) (hedit : edit ∈ edits) (hlo : edit.lo ≤ span.lo) (hhi : span.hi ≤ edit.hi) :
  Covered edits t ∨ e.Spares (.node kind span parts) t
  := by
  cases hlaid with
  | node hparts hbounded _ =>
      obtain hp' | hstray := hbounded p hp
      · obtain h | h := hdue.bounded (hparts p hp) hp'
        · exact .inl (.of_bounded h hedit hlo hhi)
        · exact .inr (.frame hgoes (.part hp h))
      · exact .inr (.frame hgoes (.decorator hp hstray (below_of_due hdue)))

/-- What is due inside of a part or a member of an element, but not inside of the child that takes
the place of the element, goes or is spared. -/
theorem covered_or_spares_splice {place : Source.Place} {span : Span} {parts : List Tree}
    {q child : Tree}
    (hlaid : (Source.Tree.node (.element place) span parts).Laid e.text comments)
    (hstraddles : e.straddles parts = true) (hp : p ∈ parts) (hq : q ∈ Grammar.flatten p)
    (hchild : child ∈ parts.flatMap Grammar.flatten) (hne : q ≠ child)
    (hspan : t.Bounded span.lo span.hi ∨ p.Astray t)
    (ht : t.Bounded q.span.lo q.span.hi ∨ p.Astray t)
    (hedits : (splice span child.span).edits ⊆ edits) :
  Covered edits t ∨ e.Spares (.node (.element place) span parts) t
  := by
  cases hlaid with
  | node _ _ hframe =>
      obtain hspan | h := hspan
      · obtain ht | h := ht
        · exact .inl (covered_of_splice (hframe rfl).2.2 (List.mem_flatMap.mpr ⟨p, hp, hq⟩) hchild
            hne hspan ht hedits)
        · exact .inr (.frame (.inr hstraddles) (.part hp h))
      · exact .inr (.frame (.inr hstraddles) (.part hp h))

/-- Whether some edits account for what is due to go inside of a tree: it goes or is spared as soon as
the edits of a walk through the tree are among them. -/
def Accounts (e : Elision) (edits : List Edit) (t u : Tree) : Prop :=
  ∀ r, (e.visit r u).edits ⊆ edits → e.Due u t → Covered edits t ∨ e.Spares u t

/-- What is due inside of an element the place of which a child takes goes or is spared, if what is
due inside of the child and of its other parts does. -/
theorem covered_or_spares_child {place : Source.Place} {span : Span} {parts : List Tree}
    {child : Tree} (hlaid : (Source.Tree.node (.element place) span parts).Laid e.text comments)
    (hstays : e.excluded span = false) (hstraddles : e.straddles parts = true)
    (hchild : child ∈ childrenOf parts) (hsurvives : e.survives child = true)
    (hedits : (splice span child.span ++ e.visitSurvivors r parts).edits ⊆ edits)
    (haccounts : ∀ p ∈ parts, ∀ q ∈ Grammar.flatten p, e.Accounts edits t q)
    (hdue : e.Due (.node (.element place) span parts) t) :
  Covered edits t ∨ e.Spares (.node (.element place) span parts) t
  := by
  have hparts : ∀ p ∈ parts, p.Laid e.text comments := fun p hp => hlaid.of_mem_parts hp
  obtain ⟨items, hseries, hmem⟩ := mem_childrenOf hchild
  have hchild' : child ∈ parts.flatMap Grammar.flatten := List.mem_flatMap.mpr ⟨_, hseries, hmem⟩
  rw [edits_append, List.append_subset] at hedits
  obtain ⟨hsplice, hsurvivors⟩ := hedits
  have hvisited :=
    List.Subset.trans (subset_visitSurvivors (r := r) hseries hmem hsurvives) hsurvivors
  cases hdue with
  | frame hkind hgoes => simp [hstays] at hgoes
  | @node _ _ _ p _ hp hdue =>
      have hp' := hlaid.bounded_part hp (by simp)
      have hspan := hdue.bounded (hparts p hp) hp'
      cases p with
      | node kind' span' parts' =>
          by_cases heq : Source.Tree.node kind' span' parts' = child
          · obtain h | h := haccounts _ hp _ (List.mem_singleton_self _) r (heq ▸ hvisited) hdue
            · exact .inl h
            · exact .inr (.node (fun _ => hstays) hp h)
          · exact covered_or_spares_splice hlaid hstraddles hp (List.mem_singleton_self _)
              hchild' heq hspan (hdue.bounded (hparts _ hp) hp'.self) hsplice
      | series rule' items' =>
          cases hparts _ hp with
          | series hitems hplaced _ =>
              cases hdue with
              | item ht hhole hgoes =>
                  have heq : t ≠ child := by
                    rintro rfl
                    simp [excluded_of_survives hsurvives] at hgoes
                  exact covered_or_spares_splice hlaid hstraddles hp ht hchild' heq hspan
                    (.inl (bounded_self (hplaced t ht))) hsplice
              | @series _ _ q _ hq hhole hdue =>
                  by_cases heq : q = child
                  · obtain h | h := haccounts _ hp q hq r (heq ▸ hvisited) hdue
                    · exact .inl h
                    · exact .inr (.node (fun _ => hstays) hp
                        (.series hq (excluded_of_survives (heq ▸ hsurvives)) h))
                  · have hq' := hdue.bounded (hitems q hq) (bounded_self (hplaced q hq))
                    exact covered_or_spares_splice hlaid hstraddles hp hq hchild' heq hspan
                      (hq'.imp_right (.part hq)) hsplice

/-- What is due inside of a node goes or is spared, if what is due inside of its parts does. -/
theorem accounts_node {kind : Kind} {span : Span} {parts : List Tree}
    (hlaid : (Source.Tree.node kind span parts).Laid e.text comments)
    (haccounts : ∀ p ∈ parts, e.Accounts edits t p)
    (hmembers : ∀ p ∈ parts, ∀ q ∈ Grammar.flatten p, e.Accounts edits t q) :
  e.Accounts edits t (.node kind span parts)
  := by
  intro r hedits hdue
  obtain ⟨hvisit, hstays⟩ | ⟨hvisit, hgoes⟩ |
    ⟨place, child, rfl, hstays, hstraddles, hchild, hsurvives, hvisit⟩ :=
    visit_node_cases e r kind span parts
  all_goals rw [hvisit] at hedits
  · -- the parts are walked through
    cases hdue with
    | frame hkind hgoes => simp [hstays hkind] at hgoes
    | @node _ _ _ p _ hp hdue =>
        obtain h | h := haccounts p hp "null"
          (List.Subset.trans (subset_visitAll hp) hedits) hdue
        · exact .inl h
        · exact .inr (.node hstays hp h)
  · -- the node goes
    have hedit := hedits (List.mem_singleton_self _)
    cases hdue with
    | frame => exact .inl fun pos hpos => ⟨_, hedit, hpos⟩
    | node hp hdue =>
        exact covered_or_spares_frame hlaid hgoes hp hdue hedit (Nat.le_refl _) (Nat.le_refl _)
  · -- a child takes the place of the node
    exact covered_or_spares_child hlaid hstays hstraddles hchild hsurvives hedits hmembers hdue

/-- What is due inside of a series goes or is spared, if what is due inside of its members does. -/
theorem accounts_series (hlaid : (Source.Tree.series rule items).Laid e.text comments)
    (haccounts : ∀ p ∈ items, e.Accounts edits t p) :
  e.Accounts edits t (.series rule items)
  := by
  intro r hedits hdue
  cases hlaid with
  | series hitems hplaced _ =>
      by_cases hall : rule = .declarators ∧ items.all e.goesOrHole = true
      · obtain ⟨rfl, hall⟩ := hall
        cases hdue with
        | item ht _ _ => exact .inr (.declarator hall ht .root)
        | series hp _ hdue => exact .inr (.declarator hall hp (below_of_due hdue))
      · have hall : rule = .declarators → items.all e.goesOrHole = false := by simpa using hall
        cases hdue with
        | item ht hhole hgoes =>
            obtain ⟨-, edit, hedit, hlo, hhi⟩ | ⟨hstays, -⟩ :=
              handled_series (r := r) ht hhole (hplaced t ht).hi hall
            · exact .inl (.of_bounded (bounded_self (hplaced t ht)) (hedits hedit) hlo hhi)
            · simp [hgoes] at hstays
        | @series _ _ p _ hp hhole hdue =>
            obtain ⟨hgoes, edit, hedit, hlo, hhi⟩ | ⟨hstays, r', hsubset⟩ :=
              handled_series (r := r) hp hhole (hplaced p hp).hi hall
            · exact covered_or_spares_item hp (hplaced p hp) (hitems p hp) hgoes hdue
                (hedits hedit) hlo hhi
            · obtain h | h := haccounts p hp r' (List.Subset.trans hsubset hedits) hdue
              · exact .inl h
              · exact .inr (.series hp hstays h)

/-- What is due to go inside of a tree that is walked through goes or is spared. -/
theorem accounts (u : Tree) (hlaid : u.Laid e.text comments) :
  e.Accounts edits t u
  := by
  match u with
  | .node kind span parts =>
      refine accounts_node hlaid (fun p hp => accounts p (hlaid.of_mem_parts hp)) fun p hp q hq => ?_
      cases p with
      | node kind' span' parts' =>
          rw [List.mem_singleton.mp hq]
          exact accounts _ (hlaid.of_mem_parts hp)
      | series rule' items' => exact accounts q ((hlaid.of_mem_parts hp).of_mem_parts hq)
  | .series rule items =>
      exact accounts_series hlaid fun p hp => accounts p (hlaid.of_mem_parts hp)
termination_by sizeOf u
decreasing_by
  all_goals first
  | exact Source.Tree.sizeOf_lt_of_mem_parts hp
  | exact (Source.Tree.sizeOf_lt_of_mem_parts hq).trans (Source.Tree.sizeOf_lt_of_mem_parts hp)

/-! ### The whole elision -/

variable {text : String} {parsed : Parsed} {ranges : List LineRange} {switches : Switches}
  {q : Edit.Piece} {pos : Nat}

/-- No byte of what is due and not spared is kept. -/
theorem not_kept_of_due (hsound : parsed.Sound text.toList)
    (hdue : (ofParsed text parsed ranges switches).Due parsed.tree t)
    (hspares : ¬(ofParsed text parsed ranges switches).Spares parsed.tree t)
    (hq : q ∈ Edit.pieces text ((ofParsed text parsed ranges switches).edits parsed.tree))
    (hkept : q.replacement = none) (hpos : t.span.Has pos) :
  ¬(q.lo ≤ pos ∧ pos < q.hi)
  := by
  have hedits : ((ofParsed text parsed ranges switches).visit "null" parsed.tree).edits ⊆
      (ofParsed text parsed ranges switches).edits parsed.tree :=
    List.subset_append_left _ _
  obtain hcovered | h := accounts parsed.tree hsound.tree "null" hedits hdue
  · obtain ⟨edit, hedit, hcovers⟩ := hcovered pos hpos
    exact Edit.not_kept_of_mem (fun edit hedit => placed_of_mem_edits hsound hedit) hedit hcovers
      hq hkept
  · exact absurd h hspares

/-- No byte of a directive is kept. -/
theorem not_kept_of_directive {c : Comment} (hsound : parsed.Sound text.toList)
    (hc : c ∈ parsed.comments) (hdirective : isDirective c.text switches = true)
    (hq : q ∈ Edit.pieces text ((ofParsed text parsed ranges switches).edits parsed.tree))
    (hkept : q.replacement = none) (hpos : c.span.Has pos) :
  ¬(q.lo ≤ pos ∧ pos < q.hi)
  := by
  have hmem : c.span ∈ (ofParsed text parsed ranges switches).directives :=
    mem_directives_iff.mpr ⟨c, hc, hdirective, rfl⟩
  exact Edit.not_kept_of_mem (fun edit hedit => placed_of_mem_edits hsound hedit)
    (List.mem_append_right _ (List.mem_map.mpr ⟨c.span, hmem, rfl⟩)) hpos hq hkept

end Elision

end Prune
