import Mathlib.Data.List.Basic
import Prune.Elision
import Prune.Proofs.Source.Layout

/-!
# What a walk deletes

Each edit that comes out of a walk through a tree has one of a few reasons (`Elision.Reason`): a node
whose lines lie in a range, a member of a separated series with its separator, the separator of the
last member that stays, an element that collapses, or braces with directives alone.  This is shown
once, by induction on the tree (`Elision.reasoned_visit`); what holds of all edits is then shown by
cases.
-/

namespace Prune

open Text Source

/-- The trees below a tree, the tree itself among them. -/
inductive Source.Tree.Below (root : Tree) : Tree → Prop where
  | root : Below root root
  | part {s t : Tree} (ht : Below root t) (hs : s ∈ t.parts) : Below root s

/-- The trees below a tree that can go: the members of series, and markup. -/
inductive Source.Tree.Removable (root : Tree) : Tree → Prop where
  | item {rule : Rule} {items : List Tree} {t : Tree} (hseries : root.Below (.series rule items))
      (ht : t ∈ items) : Removable root t
  | frame {kind : Kind} {span : Span} {parts : List Tree} (ht : root.Below (.node kind span parts))
      (hkind : kind.isFrame = true) : Removable root (.node kind span parts)

theorem Source.Tree.Removable.below {root t : Tree} (h : root.Removable t) :
  root.Below t
  := by
  cases h with
  | item hseries ht => exact .part hseries ht
  | frame ht => exact ht

/-- The separators of the members of a series. -/
def Source.Rule.separators : Rule → List Char
  | .list | .declarators => [',']
  | .members => [',', ';']
  | .block | .lone | .children => []

/-- The texts that may take the place of what goes. -/
def Elision.replacements : List String :=
  ["", "\x7b\x7d", "null"]

theorem Elision.nothing_mem_replacements :
  "" ∈ replacements
  := by
  simp [replacements]

theorem Elision.null_mem_replacements :
  "null" ∈ replacements
  := by
  simp [replacements]

namespace Elision

/-- Whether a member is the last of a series that stays, and a member behind it goes. -/
def IsLastKept (e : Elision) (items : List Tree) (kept : Tree) : Prop :=
  ∃ front back, items = front ++ kept :: back ∧ e.goesOrHole kept = false ∧
    (∀ t ∈ back, e.goesOrHole t = true) ∧ ∃ t ∈ back, e.excluded t.span = true

/-- Why an edit is made in a tree. -/
inductive Reason (e : Elision) (root : Tree) : Edit → Prop where
  /-- All lines of a node lie in one range. -/
  | node {t : Tree} {r : String} (ht : root.Removable t) (hgoes : e.excluded t.span = true)
      (hr : r ∈ replacements) : Reason e root ⟨t.span.lo, t.span.hi, r⟩
  /-- All lines of a member of a series lie in one range, and there is a separator behind it. -/
  | member {rule : Rule} {items : List Tree} {t : Tree} {sep : Nat}
      (hseries : root.Below (.series rule items)) (ht : t ∈ items)
      (hhole : isHole t = false) (hgoes : e.excluded t.span = true)
      (hsep : e.separatorAfter? rule.separators t.span.hi = some sep) :
      Reason e root ⟨t.span.lo, sep + 1, ""⟩
  /-- The members of a series behind some member go. -/
  | loose {rule : Rule} {items : List Tree} {kept : Tree} {sep : Nat}
      (hseries : root.Below (.series rule items)) (hkept : e.IsLastKept items kept)
      (hsep : e.separatorAfter? rule.separators kept.span.hi = some sep) :
      Reason e root ⟨sep, sep + 1, ""⟩
  /-- One of the tags of an element goes, and not exactly one of its children can take its place. -/
  | collapse {place : Source.Place} {span : Span} {parts : List Tree} {r : String}
      (ht : root.Below (.node (.element place) span parts)) (hgoes : e.straddles parts = true)
      (hr : r ∈ replacements) : Reason e root ⟨span.lo, span.hi, r⟩
  /-- One of the tags of an element goes, and a child takes its place. -/
  | front {place : Source.Place} {span : Span} {parts : List Tree} {child : Tree}
      (ht : root.Below (.node (.element place) span parts)) (hgoes : e.straddles parts = true)
      (hchild : child ∈ childrenOf parts) (hsurvives : e.survives child = true) :
      Reason e root ⟨span.lo, child.span.lo, ""⟩
  | back {place : Source.Place} {span : Span} {parts : List Tree} {child : Tree}
      (ht : root.Below (.node (.element place) span parts)) (hgoes : e.straddles parts = true)
      (hchild : child ∈ childrenOf parts) (hsurvives : e.survives child = true) :
      Reason e root ⟨child.span.hi, span.hi, ""⟩
  /-- Braces among the children of an element hold directives and no other comment. -/
  | container {t : Tree} (ht : root.Removable t) (hempty : isEmptyContainer t = true)
      (hholds : e.holdsDirectives t.span = true) : Reason e root ⟨t.span.lo, t.span.hi, ""⟩

/-- Whether all that was found to delete has a reason. -/
def Reasoned (e : Elision) (root : Tree) (found : Found) : Prop :=
  ∀ edit ∈ found.edits, e.Reason root edit

variable {e : Elision} {root t : Tree} {ts items : List Tree} {r : String} {a b : Found}

@[simp] theorem edits_append (a b : Found) :
  (a ++ b).edits = a.edits ++ b.edits
  := rfl

theorem Reasoned.none :
  e.Reasoned root .none
  := by
  intro edit hedit
  simp [Found.none] at hedit

theorem Reasoned.append (ha : e.Reasoned root a) (hb : e.Reasoned root b) :
  e.Reasoned root (a ++ b)
  := by
  intro edit hedit
  rw [edits_append] at hedit
  obtain hedit | hedit := List.mem_append.mp hedit
  · exact ha edit hedit
  · exact hb edit hedit

theorem Reasoned.gone (ht : root.Removable t) (hgoes : e.excluded t.span = true)
    (hr : r ∈ replacements) :
  e.Reasoned root (gone t.span r)
  := by
  intro edit hedit
  obtain rfl : edit = _ := by simpa [Elision.gone] using hedit
  exact .node ht hgoes hr

theorem Reasoned.goneWithSeparator {rule : Rule} (hseries : root.Below (.series rule items))
    (ht : t ∈ items) (hhole : isHole t = false) (hgoes : e.excluded t.span = true) :
  e.Reasoned root (e.goneWithSeparator rule.separators t.span)
  := by
  rw [Elision.goneWithSeparator]
  split
  · next sep hsep =>
    intro edit hedit
    obtain rfl : edit = _ := by simpa [Elision.gone] using hedit
    exact .member hseries ht hhole hgoes hsep
  · exact .gone (.item hseries ht) hgoes (by simp [replacements])

/-- The last member of a list that passes a test has none behind it that does. -/
theorem exists_of_getLast?_filter {α : Type} {p : α → Bool} {xs : List α} {x : α}
    (h : (xs.filter p).getLast? = some x) :
  ∃ front back, xs = front ++ x :: back ∧ p x = true ∧ ∀ y ∈ back, p y = false
  := by
  obtain ⟨init, hinit⟩ := List.getLast?_eq_some_iff.mp h
  obtain ⟨front, rest, rfl, -, hrest⟩ := List.filter_eq_append_iff.mp hinit
  obtain ⟨mid, back, rfl, -, hx, hback⟩ := List.filter_eq_cons_iff.mp hrest
  refine ⟨front ++ mid, back, by simp, hx, ?_⟩
  simpa [List.filter_eq_nil_iff] using hback

/-- The last member of a series that stays, when the members from some member on go. -/
theorem isLastKept_of_lastKept {front : List Tree} {s : Span}
    (hkept : e.lastKept? (front ++ t :: ts) = some s) (hgoes : e.excluded t.span = true)
    (hts : ts.all e.goesOrHole = true) :
  ∃ kept, kept.span = s ∧ e.IsLastKept (front ++ t :: ts) kept
  := by
  obtain ⟨kept, hlast, rfl⟩ := Option.map_eq_some_iff.mp hkept
  obtain ⟨front', back, heq, hstays, hback⟩ := exists_of_getLast?_filter hlast
  simp only [Bool.not_eq_true', Bool.not_eq_false'] at hstays hback
  refine ⟨kept, rfl, front', back, heq, hstays, hback, t, ?_, hgoes⟩
  have hgone : ∀ t' ∈ t :: ts, e.goesOrHole t' = true := by
    intro t' ht'
    obtain rfl | ht' := List.mem_cons.mp ht'
    · simp [goesOrHole, hgoes]
    · exact List.all_eq_true.mp hts t' ht'
  -- the member that stays is none of those that go, so that these are behind it
  obtain ⟨mid, -, hmid⟩ | ⟨mid, -, hmid⟩ := List.append_eq_append_iff.mp heq
  · have := hgone kept (by rw [hmid]; simp)
    simp [hstays] at this
  · cases mid with
    | nil =>
        obtain ⟨rfl, -⟩ := List.cons.inj hmid
        simp [hgone kept List.mem_cons_self] at hstays
    | cons k mid =>
        obtain ⟨-, rfl⟩ := List.cons.inj hmid
        simp

theorem Reasoned.looseSeparator {rule : Rule} {front : List Tree}
    (hseries : root.Below (.series rule (front ++ t :: ts))) (hgoes : e.excluded t.span = true)
    (hts : ts.all e.goesOrHole = true) :
  e.Reasoned root (e.looseSeparator rule.separators (e.lastKept? (front ++ t :: ts)))
  := by
  rw [Elision.looseSeparator]
  split
  · next sep hsep =>
    obtain ⟨s, hkept, hsep⟩ := Option.bind_eq_some_iff.mp hsep
    obtain ⟨kept, rfl, hlast⟩ := isLastKept_of_lastKept hkept hgoes hts
    intro edit hedit
    obtain rfl : edit = _ := by simpa using hedit
    exact .loose hseries hlast hsep
  · exact .none

theorem Reasoned.visitElement {place : Source.Place} {span : Span} {parts : List Tree}
    (ht : root.Below (.node (.element place) span parts)) (hr : r ∈ replacements)
    (hplace : place = .attribute → False) (hparts : e.Reasoned root (e.visitAll parts))
    (hsurvivors : e.Reasoned root (e.visitSurvivors r parts)) :
  e.Reasoned root (e.visit r (.node (.element place) span parts))
  := by
  rw [visit.eq_2 _ _ _ _ _ hplace]
  split
  · next hgoes => exact .gone (.frame ht rfl) hgoes hr
  · split
    · next hgoes =>
      split
      · next child hfilter =>
        have hmem : child ∈ (childrenOf parts).filter e.survives := by simp [hfilter]
        obtain ⟨hchild, hsurvives⟩ := List.mem_filter.mp hmem
        refine .append ?_ hsurvivors
        intro edit hedit
        simp only [splice, List.mem_cons, List.not_mem_nil, or_false] at hedit
        obtain rfl | rfl := hedit
        · exact .front ht hgoes hchild hsurvives
        · exact .back ht hgoes hchild hsurvives
      · intro edit hedit
        obtain rfl : edit = _ := by simpa [Elision.gone] using hedit
        exact .collapse ht hgoes hr
    · exact hparts

/-! What goes in front of the rest of a list has a reason in a list of each kind. -/

theorem Reasoned.visitBlock_cons (hremovable : root.Removable t)
    (ht : e.Reasoned root (e.visit "null" t)) (hts : e.Reasoned root (e.visitBlock ts)) :
  e.Reasoned root (e.visitBlock (t :: ts))
  := by
  rw [visitBlock]
  refine .append ?_ hts
  split
  · next hgoes => exact .gone hremovable hgoes nothing_mem_replacements
  · exact ht

theorem Reasoned.visitLone_cons (hremovable : root.Removable t)
    (ht : e.Reasoned root (e.visit "null" t)) (hts : e.Reasoned root (e.visitLone ts)) :
  e.Reasoned root (e.visitLone (t :: ts))
  := by
  rw [visitLone]
  refine .append ?_ hts
  split
  · next hgoes => exact .gone hremovable hgoes (by simp [replacements])
  · exact ht

theorem Reasoned.visitChildren_cons (hremovable : root.Removable t)
    (ht : e.Reasoned root (e.visit "" t)) (hts : e.Reasoned root (e.visitChildren ts)) :
  e.Reasoned root (e.visitChildren (t :: ts))
  := by
  rw [visitChildren]
  refine .append ?_ hts
  split
  · next hgoes => exact .gone hremovable hgoes nothing_mem_replacements
  · split
    · next hcontainer =>
      rw [Bool.and_eq_true] at hcontainer
      intro edit hedit
      obtain rfl : edit = _ := by simpa using hedit
      exact .container hremovable hcontainer.1 hcontainer.2
    · exact ht

theorem Reasoned.visitSeparated_cons {rule : Rule} {front : List Tree} {tidy : Bool}
    {kept : Option Span} (hseries : root.Below (.series rule (front ++ t :: ts)))
    (hkept : tidy = true → kept = e.lastKept? (front ++ t :: ts))
    (ht : e.Reasoned root (e.visit "null" t))
    (hts : e.Reasoned root (e.visitSeparated rule.separators tidy kept ts)) :
  e.Reasoned root (e.visitSeparated rule.separators tidy kept (t :: ts))
  := by
  have hmem : t ∈ front ++ t :: ts := by simp
  rw [visitSeparated]
  refine .append ?_ hts
  split
  · exact .none
  · next hhole =>
    split
    · next hgoes =>
      refine .append (.goneWithSeparator hseries hmem (by simpa using hhole) hgoes) ?_
      split
      · next htidy =>
        rw [Bool.and_eq_true] at htidy
        rw [hkept htidy.1]
        exact .looseSeparator hseries hgoes htidy.2
      · exact .none
    · exact ht

mutual

/-- What a walk through a tree deletes has a reason. -/
theorem reasoned_visit (r : String) (t : Tree) (ht : root.Below t) (hr : r ∈ replacements) :
  e.Reasoned root (e.visit r t)
  := by
  cases t with
  | node kind span parts =>
      obtain ⟨hall, hsurvivors, -⟩ := reasoned_visitLists parts fun p hp => .part ht hp
      cases kind with
      | element place =>
          by_cases hplace : place = .attribute
          · subst hplace
            simpa only [visit] using hall
          · exact .visitElement ht hr hplace hall (hsurvivors r hr)
      | fragment place =>
          cases place with
          | expression =>
              simp only [visit]
              split
              · next hgoes => exact .gone (.frame ht rfl) hgoes hr
              · exact hall
          | _ => simpa only [visit] using hall
      | _ => simpa only [visit] using hall
  | series rule items =>
      obtain ⟨-, -, -, hseries⟩ := reasoned_visitLists items fun p hp => .part ht hp
      obtain ⟨hblock, hlone, hchildren, hseparated⟩ := hseries rule [] ht
      cases rule with
      | block => simpa only [visit] using hblock
      | lone => simpa only [visit] using hlone
      | list =>
          simp only [visit]
          exact hseparated true _ fun _ => rfl
      | declarators =>
          simp only [visit]
          split
          · exact .none
          · exact hseparated true _ fun _ => rfl
      | members =>
          simp only [visit]
          exact hseparated false _ (by simp)
      | children => simpa only [visit] using hchildren

theorem reasoned_visitLists (ts : List Tree) (hts : ∀ t ∈ ts, root.Below t) :
  e.Reasoned root (e.visitAll ts) ∧
    (∀ r ∈ replacements, e.Reasoned root (e.visitSurvivors r ts)) ∧
    (∀ r ∈ replacements, e.Reasoned root (e.visitSurvivor r ts)) ∧
    ∀ rule front, root.Below (.series rule (front ++ ts)) →
      e.Reasoned root (e.visitBlock ts) ∧ e.Reasoned root (e.visitLone ts) ∧
        e.Reasoned root (e.visitChildren ts) ∧
        ∀ tidy kept, (tidy = true → kept = e.lastKept? (front ++ ts)) →
          e.Reasoned root (e.visitSeparated rule.separators tidy kept ts)
  := by
  cases ts with
  | nil =>
      simp only [visitAll, visitBlock, visitLone, visitChildren, visitSurvivors, visitSeparated,
        visitSurvivor, Reasoned.none, implies_true, and_self]
  | cons t ts =>
      obtain ⟨ht, hts⟩ := List.forall_mem_cons.mp hts
      obtain ⟨hall, hsurvivors, hsurvivor, hrest⟩ := reasoned_visitLists ts hts
      have hvisit (r : String) (hr : r ∈ replacements) : e.Reasoned root (e.visit r t) :=
        reasoned_visit r t ht hr
      have hnull := hvisit "null" null_mem_replacements
      refine ⟨?_, ?_, ?_, ?_⟩
      · rw [visitAll]
        exact hnull.append hall
      · intro r hr
        cases t with
        | node kind span parts => simpa only [visitSurvivors] using hsurvivors r hr
        | series rule items =>
            cases rule with
            | children =>
                rw [visitSurvivors]
                obtain ⟨-, -, hitems, -⟩ := reasoned_visitLists items fun p hp => .part ht hp
                exact (hitems r hr).append (hsurvivors r hr)
            | _ => simpa only [visitSurvivors] using hsurvivors r hr
      · intro r hr
        rw [visitSurvivor]
        refine .append ?_ (hsurvivor r hr)
        split
        · exact hvisit r hr
        · exact .none
      · intro rule front hseries
        have hremovable : root.Removable t := .item hseries (by simp)
        obtain ⟨hblock, hlone, hchildren, hseparated⟩ :=
          hrest rule (front ++ [t]) (by simpa using hseries)
        refine ⟨.visitBlock_cons hremovable hnull hblock, .visitLone_cons hremovable hnull hlone,
          .visitChildren_cons hremovable (hvisit "" nothing_mem_replacements) hchildren, ?_⟩
        intro tidy kept hkept
        exact .visitSeparated_cons hseries hkept hnull
          (hseparated tidy kept (by simpa using hkept))

end

end Elision

end Prune
