import Mathlib.Data.List.Basic
import Prune.Proofs.Elision.Walk

/-!
# Trees that stay

Nothing goes of a tree none of whose nodes lies in a range, and none of whose braces holds directives
(`Elision.visit_eq_none`), nor of such trees in front of others (`Elision.visitLists_append`).  Without
ranges and directives that is so of every tree (`Elision.stays_of_nil`).
-/

namespace Prune

open Source (Tree Span)

namespace Source.Tree

mutual

/-- Whether something is true of the spans of all nodes of a tree, and of those of all members of
series. -/
def Each (P : Span → Prop) : Tree → Prop
  | .node _ span parts => P span ∧ AllEach P parts
  | .series _ items => (∀ t ∈ items, P t.span) ∧ AllEach P items

/-- Whether something is true of the spans of all nodes of some trees. -/
def AllEach (P : Span → Prop) : List Tree → Prop
  | [] => True
  | t :: ts => t.Each P ∧ AllEach P ts

end

variable {P : Span → Prop} {t : Tree} {ts us : List Tree}

theorem AllEach.each (h : AllEach P ts) (ht : t ∈ ts) :
  t.Each P
  := by
  induction ts with
  | nil => simp at ht
  | cons s ts ih =>
      obtain rfl | ht := List.mem_cons.mp ht
      · exact h.1
      · exact ih h.2 ht

mutual

theorem each_of_forall (h : ∀ s, P s) (t : Tree) :
  t.Each P
  := by
  cases t with
  | node kind span parts => exact ⟨h span, allEach_of_forall h parts⟩
  | series rule items => exact ⟨fun t _ => h t.span, allEach_of_forall h items⟩

theorem allEach_of_forall (h : ∀ s, P s) (ts : List Tree) :
  AllEach P ts
  := by
  cases ts with
  | nil => trivial
  | cons t ts => exact ⟨each_of_forall h t, allEach_of_forall h ts⟩

end

end Source.Tree

namespace Elision

variable {e : Elision} {t : Tree} {ts : List Tree}

theorem append_eq (a b : Found) :
  a ++ b = ⟨a.edits ++ b.edits, a.removed + b.removed, a.spliced + b.spliced⟩
  := rfl

theorem none_append (a : Found) :
  Found.none ++ a = a
  := by
  simp [append_eq, Found.none]

theorem append_none (a : Found) :
  a ++ Found.none = a
  := by
  simp [append_eq, Found.none]

theorem append_assoc (a b c : Found) :
  a ++ b ++ c = a ++ (b ++ c)
  := by
  simp [append_eq, Nat.add_assoc]

/-- Whether no range has all lines of a span, and no directive stands in it alone. -/
structure Stays (e : Elision) (s : Span) : Prop where
  excluded : e.excluded s = false
  holdsDirectives : e.holdsDirectives s = false

/-- Without ranges and directives, everything stays. -/
theorem stays_of_nil (hr : e.ranges = []) (hd : e.directives = []) (s : Span) :
  e.Stays s
  := by
  constructor
  · simp [Elision.excluded, hr, LineRange.anyContains]
  · simp [Elision.holdsDirectives, hd]

/-- No tag goes of an element that stays. -/
theorem straddles_eq_false (h : Tree.AllEach e.Stays ts) :
  e.straddles ts = false
  := by
  rw [straddles, List.any_eq_false]
  intro t ht
  have ht := h.each ht
  cases t with
  | node kind span parts => simp [Tree.span, ht.1.excluded]
  | series rule items => simp [isTag, Tree.kind?]

mutual

/-- Nothing goes of a tree that stays. -/
theorem visit_eq_none (t : Tree) (h : t.Each e.Stays) (replacement : String) :
  e.visit replacement t = .none
  := by
  cases t with
  | node kind span parts =>
      have hparts := (visitLists_append parts [] h.2).1
      have hstraddles := straddles_eq_false h.2
      rw [List.append_nil, visitAll] at hparts
      cases kind with
      | element place => cases place <;> simp [visit, hparts, h.1.excluded, hstraddles]
      | fragment place => cases place <;> simp [visit, hparts, h.1.excluded]
      | _ => simp [visit, hparts]
  | series rule items =>
      obtain ⟨hblock, hlone, hseparated, hchildren⟩ := (visitLists_append items [] h.2).2 h.1
      simp only [List.append_nil] at hblock hlone hseparated hchildren
      cases rule with
      | block => simp [visit, hblock, visitBlock]
      | lone => simp [visit, hlone, visitLone]
      | list | declarators | members => simp [visit, hseparated, visitSeparated]
      | children => simp [visit, hchildren, visitChildren]

/-- Nothing goes of trees that stay in front of others, and of a series of them, whatever its
rule. -/
theorem visitLists_append (ts us : List Tree) (h : Tree.AllEach e.Stays ts) :
  e.visitAll (ts ++ us) = e.visitAll us ∧ ((∀ t ∈ ts, e.Stays t.span) →
    e.visitBlock (ts ++ us) = e.visitBlock us ∧ e.visitLone (ts ++ us) = e.visitLone us ∧
      (∀ separators tidy kept, e.visitSeparated separators tidy kept (ts ++ us)
        = e.visitSeparated separators tidy kept us) ∧
      e.visitChildren (ts ++ us) = e.visitChildren us)
  := by
  cases ts with
  | nil => simp
  | cons t ts =>
      obtain ⟨hall, hlists⟩ := visitLists_append ts us h.2
      have ht := visit_eq_none t h.1
      constructor
      · rw [List.cons_append, visitAll, ht, hall, none_append]
      intro hspans
      obtain ⟨hspan, hspans⟩ := List.forall_mem_cons.mp hspans
      obtain ⟨hblock, hlone, hseparated, hchildren⟩ := hlists hspans
      simp [visitBlock, visitLone, visitSeparated, visitChildren, hblock, hlone, hseparated,
        hchildren, ht, hspan.excluded, hspan.holdsDirectives, none_append]

end

end Elision

end Prune
