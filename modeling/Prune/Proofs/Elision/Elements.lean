import Prune.Proofs.Edit.Standing
import Prune.Proofs.Elision.Coverage
import Prune.Proofs.Elision.Staying

/-!
# Elements that collapse

What becomes of the elements of markup that a walk comes to.  An element goes and leaves a text in its
place, or the only child that stays takes its place, or it stays and what is inside of it is looked at
(`Elision.fate`).  So the walk comes from one element to the next (`Elision.next`), and what stands
for an element in the end is told by recursion along this way (`Elision.result`).

Each element whose place a child takes is counted once (`Elision.spliced_visit`).
-/

namespace Prune

open Text Source

namespace Elision

variable (e : Elision)

/-- What becomes of an element that a walk comes to. -/
inductive Fate where
  | goes
  /-- A child takes the place of the element. -/
  | collapses (child : Tree)
  | stays

/-- What becomes of an element that a walk comes to: it goes if all its lines lie in one range;
if those of one of its tags do, the only child element that stays takes its place, and it goes when
there is not exactly one. -/
def fate (t : Tree) : Fate :=
  if e.excluded t.span then .goes
  else if e.straddles t.parts then
    match (childrenOf t.parts).filter e.survives with
    | [child] => .collapses child
    | _ => .goes
  else .stays

/-- Whether a tree is an element that a walk looks at, and not the value of an attribute. -/
def isVisited (t : Tree) : Bool :=
  match t.kind? with
  | some (.element place) => place != .attribute
  | _ => false

mutual

/-- The elements that a walk through a tree comes to first, each with what it leaves when it goes.
`replacement` is what the tree leaves if it is one. -/
def nested (replacement : String) : Tree → List (String × Tree)
  | .node (.element .attribute) _ parts => nestedAll parts
  | .node (.element place) span parts => [(replacement, .node (.element place) span parts)]
  | .node (.fragment .expression) span parts => if e.excluded span then [] else nestedAll parts
  | .node _ _ parts => nestedAll parts
  | .series .block items => nestedItems (fun t => e.excluded t.span) items
  | .series .lone items => nestedItems (fun t => e.excluded t.span) items
  | .series .declarators items =>
    if items.all e.goesOrHole then [] else nestedItems e.goesOrHole items
  | .series .list items => nestedItems e.goesOrHole items
  | .series .members items => nestedItems e.goesOrHole items
  | .series .children items => nestedChildren items

/-- The elements that a walk comes to first in trees that stay. -/
def nestedAll : List Tree → List (String × Tree)
  | [] => []
  | t :: ts => nested "null" t ++ nestedAll ts

/-- The elements that a walk comes to first in the members of a series but those that are passed
over. -/
def nestedItems (passes : Tree → Bool) : List Tree → List (String × Tree)
  | [] => []
  | t :: ts => (if passes t then [] else nested "null" t) ++ nestedItems passes ts

/-- The elements that a walk comes to first among the children of an element. -/
def nestedChildren : List Tree → List (String × Tree)
  | [] => []
  | t :: ts =>
    let first :=
      if e.excluded t.span then if isVisited t then [("", t)] else []
      else if isEmptyContainer t && e.holdsDirectives t.span then []
      else nested "" t
    first ++ nestedChildren ts

end

/-- The elements that a walk comes to behind an element, each with what it leaves when it goes: the
child that takes the place of the element, or those inside of one that stays. -/
def next (replacement : String) (t : Tree) : List (String × Tree) :=
  match e.fate t with
  | .goes => []
  | .collapses child => [(replacement, child)]
  | .stays => e.nestedAll t.parts

end Elision

/-- What holds of a tree if it holds of all smaller ones holds of all trees. -/
theorem Source.Tree.induction {P : Tree → Prop}
    (h : ∀ t, (∀ s, sizeOf s < sizeOf t → P s) → P t) (t : Tree) :
  P t
  := by
  induction hn : sizeOf t using Nat.strong_induction_on generalizing t with
  | _ n ih =>
      subst hn
      exact h t fun s hs => ih _ hs s rfl

theorem Source.Tree.Below.sizeOf_le {t u : Tree} (h : u.Below t) :
  sizeOf t ≤ sizeOf u
  := by
  induction h with
  | root => exact Nat.le_refl _
  | part _ hs ih => exact Nat.le_trans (Nat.le_of_lt (Source.Tree.sizeOf_lt_of_mem_parts hs)) ih

namespace Elision

/-! ### From one element to the next -/

variable {e : Elision} {r : String} {t : Tree} {ts : List Tree} {v : String × Tree}
  {passes : Tree → Bool}

theorem mem_nestedAll_iff :
  v ∈ e.nestedAll ts ↔ ∃ p ∈ ts, v ∈ e.nested "null" p
  := by
  induction ts with
  | nil => simp [nestedAll]
  | cons t ts ih => simp [nestedAll, ih]

theorem mem_nestedItems_iff :
  v ∈ e.nestedItems passes ts ↔ ∃ p ∈ ts, passes p = false ∧ v ∈ e.nested "null" p
  := by
  induction ts with
  | nil => simp [nestedItems]
  | cons t ts ih =>
      rw [nestedItems, List.mem_append, ih, List.exists_mem_cons_iff]
      cases hpasses : passes t with
      | true => simp
      | false => simp

theorem exists_of_mem_nestedChildren (h : v ∈ e.nestedChildren ts) :
  ∃ p ∈ ts, v = ("", p) ∧ isVisited p = true ∨ v ∈ e.nested "" p
  := by
  induction ts with
  | nil => simp [nestedChildren] at h
  | cons t ts ih =>
      rw [nestedChildren, List.mem_append] at h
      obtain h | h := h
      · use t, List.mem_cons_self
        split at h
        · split at h
          · next hvisited => exact .inl ⟨List.mem_singleton.mp h, hvisited⟩
          · simp at h
        · split at h
          · simp at h
          · exact .inr h
      · obtain ⟨p, hp, h⟩ := ih h
        exact ⟨p, List.mem_cons_of_mem _ hp, h⟩

/-- An element that a walk through a tree comes to first is the tree itself or comes from a part. -/
theorem mem_nested_cases (h : v ∈ e.nested r t) :
  v = (r, t) ∧ isVisited t = true ∨
    ∃ p ∈ t.parts, v = ("", p) ∧ isVisited p = true ∨ ∃ r' ∈ replacements, v ∈ e.nested r' p
  := by
  have hall {parts : List Tree} (h : v ∈ e.nestedAll parts) :
      ∃ p ∈ parts, v = ("", p) ∧ isVisited p = true ∨ ∃ r' ∈ replacements, v ∈ e.nested r' p := by
    obtain ⟨p, hp, h⟩ := mem_nestedAll_iff.mp h
    exact ⟨p, hp, .inr ⟨_, null_mem_replacements, h⟩⟩
  have hitems {passes : Tree → Bool} {items : List Tree} (h : v ∈ e.nestedItems passes items) :
      ∃ p ∈ items, v = ("", p) ∧ isVisited p = true ∨ ∃ r' ∈ replacements, v ∈ e.nested r' p := by
    obtain ⟨p, hp, -, h⟩ := mem_nestedItems_iff.mp h
    exact ⟨p, hp, .inr ⟨_, null_mem_replacements, h⟩⟩
  unfold nested at h
  split at h
  · exact .inr (hall h)
  · next place span parts hplace =>
    refine .inl ⟨List.mem_singleton.mp h, ?_⟩
    simpa [isVisited, Tree.kind?] using hplace
  · split at h
    · simp at h
    · exact .inr (hall h)
  · exact .inr (hall h)
  · exact .inr (hitems h)
  · exact .inr (hitems h)
  · split at h
    · simp at h
    · exact .inr (hitems h)
  · exact .inr (hitems h)
  · exact .inr (hitems h)
  · obtain ⟨p, hp, h⟩ := exists_of_mem_nestedChildren h
    exact .inr ⟨p, hp, h.imp_right fun h => ⟨_, nothing_mem_replacements, h⟩⟩

theorem of_mem_nested (h : v ∈ e.nested r t) (hr : r ∈ replacements) :
  t.Below v.2 ∧ isVisited v.2 = true ∧ v.1 ∈ replacements
  := by
  induction t using Source.Tree.induction generalizing r with
  | h t ih =>
      obtain ⟨rfl, hvisited⟩ | ⟨p, hp, ⟨rfl, hvisited⟩ | ⟨r', hr', h⟩⟩ := mem_nested_cases h
      · exact ⟨.root, hvisited, hr⟩
      · exact ⟨.part .root hp, hvisited, nothing_mem_replacements⟩
      · obtain ⟨hbelow, h⟩ := ih p (Source.Tree.sizeOf_lt_of_mem_parts hp) h hr'
        exact ⟨.of_part hp hbelow, h⟩

/-- The child that takes the place of an element is the only one that stays. -/
theorem fate_eq_collapses {child : Tree} (h : e.fate t = .collapses child) :
  e.excluded t.span = false ∧ e.straddles t.parts = true ∧
    (childrenOf t.parts).filter e.survives = [child]
  := by
  unfold fate at h
  split at h
  · simp at h
  · next hstays =>
    split at h
    · next hstraddles =>
      split at h
      · next child' hfilter =>
        obtain rfl := Fate.collapses.inj h
        exact ⟨by simpa using hstays, hstraddles, hfilter⟩
      · simp at h
    · simp at h

theorem fate_eq_stays (h : e.fate t = .stays) :
  e.excluded t.span = false ∧ e.straddles t.parts = false
  := by
  unfold fate at h
  split at h
  · simp at h
  · next hstays =>
    split at h
    · split at h <;> simp at h
    · next hstraddles => exact ⟨by simpa using hstays, by simpa using hstraddles⟩

theorem below_child {child : Tree} (h : e.fate t = .collapses child) :
  child ∈ childrenOf t.parts ∧ e.survives child = true
  := by
  obtain ⟨-, -, hfilter⟩ := fate_eq_collapses h
  exact List.mem_filter.mp (by simp [hfilter])

/-- The walk goes from an element to what lies inside of it. -/
theorem exists_part_of_mem_next (h : v ∈ e.next r t) :
  ∃ p ∈ t.parts, p.Below v.2
  := by
  unfold next at h
  split at h
  · simp at h
  · next child hfate =>
    obtain rfl := List.mem_singleton.mp h
    obtain ⟨items, hseries, hchild⟩ := mem_childrenOf (below_child hfate).1
    exact ⟨_, hseries, .part .root hchild⟩
  · obtain ⟨p, hp, h⟩ := mem_nestedAll_iff.mp h
    exact ⟨p, hp, (of_mem_nested h null_mem_replacements).1⟩

theorem sizeOf_lt_of_mem_next (h : v ∈ e.next r t) :
  sizeOf v.2 < sizeOf t
  := by
  obtain ⟨p, hp, hbelow⟩ := exists_part_of_mem_next h
  exact Nat.lt_of_le_of_lt hbelow.sizeOf_le (Source.Tree.sizeOf_lt_of_mem_parts hp)

variable (e)

/-- The elements that a walk comes to from an element on, each with what it leaves when it goes. -/
def visitedFrom (replacement : String) (t : Tree) : List (String × Tree) :=
  (replacement, t) :: (e.next replacement t).attach.flatMap fun v => visitedFrom v.1.1 v.1.2
termination_by sizeOf t
decreasing_by exact sizeOf_lt_of_mem_next v.2

/-- The elements that a walk through a tree comes to, each with what it leaves when it goes. -/
def visited (root : Tree) : List (String × Tree) :=
  (e.nested "null" root).flatMap fun v => e.visitedFrom v.1 v.2

/-- The deletions of the comments that are directives. -/
def strips : List Edit :=
  e.directives.map fun s => ⟨s.lo, s.hi, ""⟩

/-- Some edits but those inside of what others take out. -/
def outside (patches edits : List Edit) : List Edit :=
  edits.filter fun edit =>
    !patches.any fun patch => decide (patch.lo ≤ edit.lo) && decide (edit.hi ≤ patch.hi)

/-- What stands for an element that stays: what is inside of it goes as in any tree, and `patches`
put in their places what stands for the elements in it. -/
def inPlace (t : Tree) (patches : List Edit) : String :=
  let others := outside patches (e.visitAll t.parts).edits
  String.ofList
    (Edit.standing e.text (patches ++ others ++ e.strips) t.span.lo t.span.hi)

/-- What stands for an element in the end: what it leaves when it goes, what stands for the child that
takes its place, or the element without what goes inside of it. -/
def result (replacement : String) (t : Tree) : String :=
  match _hfate : e.fate t with
  | .goes => replacement
  | .collapses child => result replacement child
  | .stays => e.inPlace t ((e.nestedAll t.parts).attach.map fun v =>
      ⟨v.1.2.span.lo, v.1.2.span.hi, result v.1.1 v.1.2⟩)
termination_by sizeOf t
decreasing_by
  · exact sizeOf_lt_of_mem_next (e := e) (r := replacement) (v := (replacement, child))
      (by simp [next, _hfate])
  · exact sizeOf_lt_of_mem_next (e := e) (r := replacement) (by simpa [next, _hfate] using v.2)

/-- Whether a child takes the place of an element. -/
def collapses (t : Tree) : Bool :=
  match e.fate t with
  | .collapses _ => true
  | _ => false

variable {e}

theorem visitedFrom_eq (r : String) (t : Tree) :
  e.visitedFrom r t = (r, t) :: (e.next r t).flatMap fun v => e.visitedFrom v.1 v.2
  := by
  have hattach := @List.attach_map_val _ _ (e.next r t) fun v => e.visitedFrom v.1 v.2
  rw [visitedFrom, List.flatMap_def, List.flatMap_def, hattach]

theorem result_of_goes (h : e.fate t = .goes) :
  e.result r t = r
  := by
  rw [result]
  split <;> simp_all

theorem result_of_collapses {child : Tree} (h : e.fate t = .collapses child) :
  e.result r t = e.result r child
  := by
  rw [result]
  split <;> simp_all

/-- What puts in the place of an element what stands for it. -/
def patch (e : Elision) (v : String × Tree) : Edit :=
  ⟨v.2.span.lo, v.2.span.hi, e.result v.1 v.2⟩

theorem result_of_stays (h : e.fate t = .stays) :
  e.result r t = e.inPlace t ((e.nestedAll t.parts).map e.patch)
  := by
  have hattach := @List.attach_map_val _ _ (e.nestedAll t.parts) fun v =>
    (⟨v.2.span.lo, v.2.span.hi, e.result v.1 v.2⟩ : Edit)
  rw [result]
  split
  · simp_all
  · simp_all
  · rw [hattach]
    rfl

/-! ### Counting -/

/-- The number of elements that a child takes the place of, from some elements on. -/
def steps (e : Elision) (vs : List (String × Tree)) : Nat :=
  (vs.flatMap fun v => e.visitedFrom v.1 v.2).countP fun v => e.collapses v.2

theorem steps_append (vs ws : List (String × Tree)) :
  e.steps (vs ++ ws) = e.steps vs + e.steps ws
  := by
  simp [steps]

theorem steps_singleton (r : String) (t : Tree) :
  e.steps [(r, t)] = e.steps (e.next r t) + if e.collapses t then 1 else 0
  := by
  simp [steps, visitedFrom_eq r t, List.countP_cons]

@[simp] theorem spliced_append (a b : Found) :
  (a ++ b).spliced = a.spliced + b.spliced
  := rfl

/-- Whether no element among the children of another, somewhere below a tree, stands as the value of
an attribute. -/
def Childlike (root : Tree) : Prop :=
  ∀ t, root.Below t → ∀ child ∈ childrenOf t.parts, isElement child = true → isVisited child = true

variable {root p : Tree} {items parts : List Tree}

theorem Childlike.of_below (h : Childlike root) (ht : root.Below t) :
  Childlike t
  := by
  intro u hu
  refine h u ?_
  induction hu with
  | root => exact ht
  | part _ hs ih => exact .part ih hs

theorem visitSurvivor_append (r : String) (items items' : List Tree) :
  e.visitSurvivor r (items ++ items') = e.visitSurvivor r items ++ e.visitSurvivor r items'
  := by
  induction items with
  | nil => rw [List.nil_append, visitSurvivor, none_append]
  | cons t items ih => rw [List.cons_append, visitSurvivor, visitSurvivor, ih, append_assoc]

theorem visitSurvivors_eq (r : String) (parts : List Tree) :
  e.visitSurvivors r parts = e.visitSurvivor r (childrenOf parts)
  := by
  induction parts with
  | nil => simp only [visitSurvivors, childrenOf, List.flatMap_nil, visitSurvivor]
  | cons p parts ih =>
      rw [childrenOf, List.flatMap_cons, visitSurvivor_append]
      cases p with
      | node kind span parts =>
          simp only [visitSurvivors]
          rw [ih, visitSurvivor, none_append, childrenOf]
      | series rule items =>
          cases rule with
          | children => rw [visitSurvivors, ih, childrenOf]
          | _ =>
              simp only [visitSurvivors]
              rw [ih, visitSurvivor, none_append, childrenOf]

theorem visitSurvivor_filter (r : String) (items : List Tree) :
  e.visitSurvivor r items = e.visitSurvivor r (items.filter e.survives)
  := by
  induction items with
  | nil => rfl
  | cons t items ih =>
      cases ht : e.survives t with
      | true => rw [List.filter_cons_of_pos ht, visitSurvivor, visitSurvivor, ih]
      | false =>
          rw [List.filter_cons_of_neg (by simp [ht]), visitSurvivor, ← ih, if_neg (by simp [ht]),
            none_append]

/-- The walk goes on from the only child that stays. -/
theorem visitSurvivors_of_filter {child : Tree}
    (h : (childrenOf parts).filter e.survives = [child]) :
  e.visitSurvivors r parts = e.visit r child
  := by
  have hchild : e.survives child = true := by
    have hmem : child ∈ (childrenOf parts).filter e.survives := by simp [h]
    exact (List.mem_filter.mp hmem).2
  rw [visitSurvivors_eq, visitSurvivor_filter, h, visitSurvivor, visitSurvivor, if_pos hchild,
    append_none]

theorem exists_of_isVisited (h : isVisited t = true) :
  ∃ place span parts, t = .node (.element place) span parts ∧ (place = .attribute → False)
  := by
  unfold isVisited at h
  split at h
  · next place hkind =>
    cases t with
    | node kind span parts =>
        obtain rfl : kind = .element place := by simpa [Tree.kind?] using hkind
        exact ⟨place, span, parts, rfl, by simpa using h⟩
    | series => simp [Tree.kind?] at hkind
  · simp at h

theorem visit_of_goes (ht : isVisited t = true) (h : e.fate t = .goes) :
  e.visit r t = gone t.span r
  := by
  obtain ⟨place, span, parts, rfl, hplace⟩ := exists_of_isVisited ht
  rw [visit.eq_2 _ _ _ _ _ hplace]
  split
  · rfl
  · next hstays =>
    split
    · next hstraddles =>
      split
      · next child hfilter =>
        simp [fate, Tree.span, Tree.parts, hstays, hstraddles, hfilter] at h
      · rfl
    · next hstraddles => simp [fate, Tree.span, Tree.parts, hstays, hstraddles] at h

theorem visit_of_collapses {child : Tree} (ht : isVisited t = true)
    (h : e.fate t = .collapses child) :
  e.visit r t = splice t.span child.span ++ e.visit r child
  := by
  obtain ⟨hstays, hstraddles, hfilter⟩ := fate_eq_collapses h
  obtain ⟨place, span, parts, rfl, hplace⟩ := exists_of_isVisited ht
  simp only [Tree.span, Tree.parts] at hstays hstraddles hfilter
  rw [visit.eq_2 _ _ _ _ _ hplace, if_neg (by simp [hstays]), if_pos hstraddles]
  simp only [hfilter, visitSurvivors_of_filter hfilter, Tree.span]

theorem visit_of_stays (ht : isVisited t = true) (h : e.fate t = .stays) :
  e.visit r t = e.visitAll t.parts
  := by
  obtain ⟨hstays, hstraddles⟩ := fate_eq_stays h
  obtain ⟨place, span, parts, rfl, hplace⟩ := exists_of_isVisited ht
  simp only [Tree.span, Tree.parts] at hstays hstraddles
  rw [visit.eq_2 _ _ _ _ _ hplace, if_neg (by simp [hstays]), if_neg (by simp [hstraddles])]
  rfl

theorem nested_of_isVisited (h : isVisited t = true) :
  e.nested r t = [(r, t)]
  := by
  obtain ⟨place, span, parts, rfl, hplace⟩ := exists_of_isVisited h
  rw [nested.eq_2 _ _ _ _ _ hplace]

/-- A node that is no element the walk looks at is walked through, or is a fragment that goes. -/
theorem visit_node_of_not_isVisited {kind : Kind} {span : Span}
    (h : isVisited (.node kind span parts) = false) (r : String) :
  e.visit r (.node kind span parts) = e.visitAll parts ∧
      e.nested r (.node kind span parts) = e.nestedAll parts ∨
    kind = .fragment .expression ∧ e.excluded span = true ∧
      e.visit r (.node kind span parts) = gone span r ∧ e.nested r (.node kind span parts) = []
  := by
  cases kind with
  | element place =>
      obtain rfl : place = .attribute := by simpa [isVisited, Tree.kind?] using h
      exact .inl ⟨by simp only [visit], by simp only [nested]⟩
  | fragment place =>
      cases place with
      | expression =>
          by_cases hgoes : e.excluded span = true
          · exact .inr ⟨rfl, hgoes, by simp only [visit, if_pos hgoes],
              by simp only [nested, if_pos hgoes]⟩
          · exact .inl ⟨by simp only [visit, if_neg hgoes], by simp only [nested, if_neg hgoes]⟩
      | _ => exact .inl ⟨by simp only [visit], by simp only [nested]⟩
  | _ => exact .inl ⟨by simp only [visit], by simp only [nested]⟩

/-- Whether the elements that a walk through a tree counts are those it comes to. -/
def Counted (e : Elision) (t : Tree) : Prop :=
  ∀ r, (e.visit r t).spliced = e.steps (e.nested r t)

theorem spliced_visitAll (h : ∀ p ∈ parts, e.Counted p) :
  (e.visitAll parts).spliced = e.steps (e.nestedAll parts)
  := by
  induction parts with
  | nil => rfl
  | cons p parts ih =>
      obtain ⟨hp, hparts⟩ := List.forall_mem_cons.mp h
      rw [visitAll, nestedAll, spliced_append, steps_append, hp, ih hparts]

theorem spliced_visitBlock (h : ∀ p ∈ items, e.Counted p) :
  (e.visitBlock items).spliced = e.steps (e.nestedItems (fun t => e.excluded t.span) items)
  := by
  induction items with
  | nil => rfl
  | cons p items ih =>
      obtain ⟨hp, hitems⟩ := List.forall_mem_cons.mp h
      rw [visitBlock, nestedItems, spliced_append, steps_append, ih hitems]
      split
      · rfl
      · rw [hp]

theorem spliced_visitLone (h : ∀ p ∈ items, e.Counted p) :
  (e.visitLone items).spliced = e.steps (e.nestedItems (fun t => e.excluded t.span) items)
  := by
  induction items with
  | nil => rfl
  | cons p items ih =>
      obtain ⟨hp, hitems⟩ := List.forall_mem_cons.mp h
      rw [visitLone, nestedItems, spliced_append, steps_append, ih hitems]
      split
      · rfl
      · rw [hp]

theorem spliced_goneWithSeparator (separators : List Char) (s : Span) :
  (e.goneWithSeparator separators s).spliced = 0
  := by
  unfold goneWithSeparator
  split <;> rfl

theorem spliced_looseSeparator (separators : List Char) (kept : Option Span) :
  (e.looseSeparator separators kept).spliced = 0
  := by
  unfold looseSeparator
  split <;> rfl

theorem spliced_visitSeparated {separators : List Char} {tidy : Bool} {kept : Option Span}
    (h : ∀ p ∈ items, e.Counted p) :
  (e.visitSeparated separators tidy kept items).spliced
    = e.steps (e.nestedItems e.goesOrHole items)
  := by
  induction items with
  | nil => rfl
  | cons p items ih =>
      obtain ⟨hp, hitems⟩ := List.forall_mem_cons.mp h
      rw [visitSeparated, nestedItems, spliced_append, steps_append, ih hitems, goesOrHole]
      by_cases hhole : isHole p = true
      · simp [hhole, Found.none, steps]
      · by_cases hgoes : e.excluded p.span = true
        · have hloose : (if tidy && items.all e.goesOrHole then e.looseSeparator separators kept
              else Found.none).spliced = 0 := by
            split
            · exact spliced_looseSeparator _ _
            · rfl
          simp only [hhole, hgoes, Bool.false_eq_true, if_false, if_true, Bool.or_true,
            spliced_append, spliced_goneWithSeparator, hloose]
          rfl
        · simp [hhole, hgoes, hp "null"]

theorem spliced_visitChildren (h : ∀ p ∈ items, e.Counted p) :
  (e.visitChildren items).spliced = e.steps (e.nestedChildren items)
  := by
  induction items with
  | nil => rfl
  | cons p items ih =>
      obtain ⟨hp, hitems⟩ := List.forall_mem_cons.mp h
      rw [visitChildren, nestedChildren, spliced_append, steps_append, ih hitems]
      congr 1
      split
      · next hgoes =>
        have hfate : e.fate p = .goes := by rw [fate, if_pos hgoes]
        split
        · rw [steps_singleton, next, hfate, collapses, hfate]
          rfl
        · rfl
      · split
        · rfl
        · exact hp ""

/-- A child takes the place of each element that is counted, among those that the walk comes to. -/
theorem spliced_visit (h : Childlike t) (r : String) :
  (e.visit r t).spliced = e.steps (e.nested r t)
  := by
  induction t using Source.Tree.induction generalizing r with
  | h t ih =>
      have hparts (p : Tree) (hp : p ∈ t.parts) : e.Counted p :=
        fun r => ih p (Source.Tree.sizeOf_lt_of_mem_parts hp) (h.of_below (.part .root hp)) r
      cases hvisited : isVisited t with
      | true =>
          rw [nested_of_isVisited hvisited, steps_singleton]
          cases hfate : e.fate t with
          | goes =>
              rw [visit_of_goes hvisited hfate, next, hfate, collapses, hfate]
              rfl
          | collapses child =>
              have hmem : (r, child) ∈ e.next r t := by simp [next, hfate]
              have hbelow := (below_child hfate)
              have hchild := h t .root child hbelow.1 (isElement_of_survives hbelow.2)
              obtain ⟨p, hp, hp'⟩ := exists_part_of_mem_next hmem
              rw [visit_of_collapses hvisited hfate, spliced_append,
                ih child (sizeOf_lt_of_mem_next hmem) (h.of_below (.of_part hp hp')) r,
                nested_of_isVisited hchild, next, hfate, collapses, hfate]
              simp [splice, Nat.add_comm]
          | stays =>
              rw [visit_of_stays hvisited hfate, next, hfate, collapses, hfate,
                spliced_visitAll hparts]
              rfl
      | false =>
          cases t with
          | node kind span parts =>
              obtain ⟨hvisit, hnested⟩ | ⟨-, -, hvisit, hnested⟩ :=
                visit_node_of_not_isVisited (e := e) hvisited r
              · rw [hvisit, hnested]
                exact spliced_visitAll hparts
              · rw [hvisit, hnested]
                rfl
          | series rule items =>
              cases rule with
              | block =>
                  simp only [visit, nested]
                  exact spliced_visitBlock hparts
              | lone =>
                  simp only [visit, nested]
                  exact spliced_visitLone hparts
              | list | members =>
                  simp only [visit, nested]
                  exact spliced_visitSeparated hparts
              | declarators =>
                  simp only [visit, nested]
                  split
                  · rfl
                  · exact spliced_visitSeparated hparts
              | children =>
                  simp only [visit, nested]
                  exact spliced_visitChildren hparts

end Elision

end Prune
