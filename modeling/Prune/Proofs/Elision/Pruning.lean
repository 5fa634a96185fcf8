import Mathlib.Data.List.Basic
import Prune.Proofs.Elision.Deletions
import Prune.Proofs.Reparse

/-!
# Trees of what is left

The tree that is left when the nodes in some ranges go (`Elision.pruned`), and what two trees have in
common that differ in positions only (`Tree.shape`).  A text that comes out of processing need not
spell out the tree that is left: where a directive stands between two words, these become one.  It
does for texts of which no comment vanishes, where nothing goes from the tree either
(`Elision.prune_eq_some`).
-/

namespace Prune

open Source

namespace Source.Tree

mutual

/-- A tree without its positions. -/
def shape : Tree → Tree
  | .node kind _ parts => .node kind ⟨0, 0⟩ (shapes parts)
  | .series rule items => .series rule (shapes items)

/-- Trees without their positions. -/
def shapes : List Tree → List Tree
  | [] => []
  | t :: ts => t.shape :: shapes ts

end

/-- The literal that stands where markup went. -/
def null : Tree := .node .null ⟨0, 0⟩ []

/-- The block that stands where a lone statement went. -/
def emptyBlock : Tree := .node (.statement .block) ⟨0, 0⟩ [.series .block []]

/-- Markup that takes the place of an element. -/
def putAt (place : Source.Place) : Tree → Tree
  | .node (.element _) span parts => .node (.element place) span parts
  | t => t

end Source.Tree

namespace Elision

variable (e : Elision)

mutual

/-- What is left of a tree; none of markup that goes. -/
def prune : Tree → Option Tree
  | .node (.element .attribute) span parts =>
    some (.node (.element .attribute) span (pruneAll parts))
  | .node (.element place) span parts =>
    if e.excluded span then none
    else if e.straddles parts then
      match (childrenOf parts).filter e.survives with
      | [_] => (pruneSurvivors parts).map (Tree.putAt place)
      | _ => none
    else some (.node (.element place) span (pruneAll parts))
  | .node (.fragment .expression) span parts =>
    if e.excluded span then none else some (.node (.fragment .expression) span (pruneAll parts))
  | .node kind span parts => some (.node kind span (pruneAll parts))
  | .series .block items => some (.series .block (pruneBlock items))
  | .series .lone items => some (.series .lone (pruneLone items))
  | .series .declarators items =>
    if items.all e.goesOrHole then some (.series .declarators items)
    else some (.series .declarators (pruneSeparated items))
  | .series .list items => some (.series .list (pruneSeparated items))
  | .series .members items => some (.series .members (pruneSeparated items))
  | .series .children items => some (.series .children (pruneChildren items))

/-- What is left of some trees, where markup that goes leaves a literal. -/
def pruneAll : List Tree → List Tree
  | [] => []
  | t :: ts => (prune t).getD .null :: pruneAll ts

/-- What is left of statements and their like. -/
def pruneBlock : List Tree → List Tree
  | [] => []
  | t :: ts =>
    if e.excluded t.span then pruneBlock ts else (prune t).getD .null :: pruneBlock ts

/-- What is left of a lone statement. -/
def pruneLone : List Tree → List Tree
  | [] => []
  | t :: ts =>
    (if e.excluded t.span then .emptyBlock else (prune t).getD .null) :: pruneLone ts

/-- What is left of a separated series. -/
def pruneSeparated : List Tree → List Tree
  | [] => []
  | t :: ts =>
    if isHole t then t :: pruneSeparated ts
    else if e.excluded t.span then pruneSeparated ts
    else (prune t).getD .null :: pruneSeparated ts

/-- What is left of the children of an element. -/
def pruneChildren : List Tree → List Tree
  | [] => []
  | t :: ts =>
    if e.excluded t.span || (isEmptyContainer t && e.holdsDirectives t.span) then pruneChildren ts
    else (prune t).toList ++ pruneChildren ts

/-- What is left of the child that takes the place of an element, given the parts of the element. -/
def pruneSurvivors : List Tree → Option Tree
  | [] => none
  | .series .children items :: ts => (pruneSurvivor items).orElse fun _ => pruneSurvivors ts
  | _ :: ts => pruneSurvivors ts

/-- What is left of the child that takes the place of an element, given the children. -/
def pruneSurvivor : List Tree → Option Tree
  | [] => none
  | t :: ts => if e.survives t then prune t else pruneSurvivor ts

end

/-- The tree that is left of a tree. -/
def pruned (t : Tree) : Tree :=
  (e.prune t).getD .null

variable {e}

mutual

/-- All of a tree that stays is left. -/
theorem prune_eq_some (t : Tree) (h : t.Each e.Stays) :
  e.prune t = some t
  := by
  cases t with
  | node kind span parts =>
      have hparts := (pruneLists_append parts [] h.2).1
      have hstraddles := straddles_eq_false h.2
      simp only [List.append_nil, pruneAll] at hparts
      cases kind with
      | element place => cases place <;> simp [prune, hparts, h.1.excluded, hstraddles]
      | fragment place => cases place <;> simp [prune, hparts, h.1.excluded]
      | _ => simp [prune, hparts]
  | series rule items =>
      obtain ⟨hblock, hlone, hseparated, hchildren⟩ := (pruneLists_append items [] h.2).2 h.1
      simp only [List.append_nil, pruneBlock, pruneLone, pruneSeparated, pruneChildren]
        at hblock hlone hseparated hchildren
      cases rule with
      | block => simp [prune, hblock]
      | lone => simp [prune, hlone]
      | list | declarators | members => simp [prune, hseparated]
      | children => simp [prune, hchildren]

/-- All is left of trees that stay in front of others, and of a series of them, whatever its
rule. -/
theorem pruneLists_append (ts us : List Tree) (h : Tree.AllEach e.Stays ts) :
  e.pruneAll (ts ++ us) = ts ++ e.pruneAll us ∧ ((∀ t ∈ ts, e.Stays t.span) →
    e.pruneBlock (ts ++ us) = ts ++ e.pruneBlock us ∧
      e.pruneLone (ts ++ us) = ts ++ e.pruneLone us ∧
      e.pruneSeparated (ts ++ us) = ts ++ e.pruneSeparated us ∧
      e.pruneChildren (ts ++ us) = ts ++ e.pruneChildren us)
  := by
  cases ts with
  | nil => simp
  | cons t ts =>
      obtain ⟨hall, hlists⟩ := pruneLists_append ts us h.2
      have ht := prune_eq_some t h.1
      constructor
      · simp [pruneAll, hall, ht]
      intro hspans
      obtain ⟨hspan, hspans⟩ := List.forall_mem_cons.mp hspans
      obtain ⟨hblock, hlone, hseparated, hchildren⟩ := hlists hspans
      simp [pruneBlock, pruneLone, pruneSeparated, pruneChildren, hblock, hlone, hseparated,
        hchildren, ht, hspan.excluded, hspan.holdsDirectives]

end

end Elision

/-! ### Processing -/

/-- A source text of which no comment vanishes comes out with the tree that is left of its own. -/
theorem shape_output_of_no_directive {text path : String} {parsed : Parsed}
    (hparse : parseSource text path = some parsed) (o : Options)
    (h : ∀ c ∈ parsed.comments, isDirective c.text o.switches = false) :
  ∃ p parsed', process text path o = some p ∧
    parseSource p.output.code path = some parsed' ∧
    parsed'.tree.shape
      = ((Elision.ofParsed text parsed p.ranges o.switches).pruned parsed.tree).shape
  := by
  obtain ⟨hprocess, hranges, hcode⟩ := process_of_no_directive hparse o h
  refine ⟨processParsed text parsed o, parsed, hprocess, ?_, ?_⟩
  · rw [hcode]
    exact hparse
  · rw [hranges, Elision.pruned, Elision.prune_eq_some _
      (Tree.each_of_forall (Elision.stays_of_nil rfl (Elision.directives_eq_nil h)) _),
      Option.getD_some]

/-- A directive between two words: the words become one, and so does what they spell out. -/
theorem shape_output_ne_of_void :
  let text := "void/* #debug */f();\n"
  let o : Options := { switches := [("debug", true)] }
  ∃ parsed p parsed', parseSource text "a.js" = some parsed ∧ process text "a.js" o = some p ∧
    p.output.code = "voidf();\n" ∧ parseSource p.output.code "a.js" = some parsed' ∧
    parsed'.tree.shape
      ≠ ((Elision.ofParsed text parsed p.ranges o.switches).pruned parsed.tree).shape
  := by
  intro text o
  -- the kinds of the expressions that are statements
  let kinds (t : Tree) : List (Option Kind) :=
    ((t.parts.flatMap Tree.parts).flatMap Tree.parts).map Tree.kind?
  have h : (parseSource text "a.js").any (fun parsed => (process text "a.js" o).any fun p =>
      p.output.code == "voidf();\n" && (parseSource p.output.code "a.js").any fun parsed' =>
        kinds parsed'.tree.shape
          != kinds ((Elision.ofParsed text parsed p.ranges o.switches).pruned parsed.tree).shape)
      = true := by
    decide +kernel
  obtain ⟨parsed, hparsed, h⟩ := (Option.any_eq_true _ _).mp h
  obtain ⟨p, hp, h⟩ := (Option.any_eq_true _ _).mp h
  rw [Bool.and_eq_true, beq_iff_eq] at h
  obtain ⟨parsed', hparsed', hkinds⟩ := (Option.any_eq_true _ _).mp h.2
  refine ⟨parsed, p, parsed', hparsed, hp, h.1, hparsed', fun heq => ?_⟩
  rw [bne_iff_ne] at hkinds
  exact hkinds (congrArg kinds heq)

end Prune
