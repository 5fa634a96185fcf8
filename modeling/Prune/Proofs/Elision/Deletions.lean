import Mathlib.Data.List.Basic
import Prune.Proofs.Edit.Pieces
import Prune.Proofs.Elision.Separators
import Prune.Proofs.Elision.Walk

/-!
# What may be deleted

The bytes that an elision may take out of a text (`Elision.Droppable`), and that it takes out no
others but blanks (`Elision.droppable_of_replaced`).  The edits start and end between characters
(`Elision.placed_of_mem_edits`), so that the pieces of the text between them come out as they are.
-/

namespace Prune

open Text Source

/-- Whether a span has a byte in it. -/
def Source.Span.Has (s : Span) (pos : Nat) : Prop :=
  s.lo ≤ pos ∧ pos < s.hi

namespace Source.Tree

variable {text : List Char} {comments : List Comment} {root s t : Tree}

theorem Laid.of_below (h : root.Laid text comments) (ht : root.Below t) :
  t.Laid text comments
  := by
  induction ht with
  | root => exact h
  | part _ hs ih => exact ih.of_mem_parts hs

theorem Bounded.of_lt {lo hi : Nat} (h : t.Bounded lo hi) (hlt : t.span.lo < t.span.hi) :
  lo ≤ t.span.lo ∧ t.span.hi ≤ hi
  := by
  cases h with
  | node _ hin => exact hin hlt
  | series => simp [span] at hlt

theorem Laid.placed (h : root.Laid text comments) (ht : root.Removable t) :
  t.Placed text
  := by
  cases ht with
  | item hseries ht =>
      cases h.of_below hseries with
      | series _ hplaced _ => exact hplaced t ht
  | frame ht hkind =>
      cases h.of_below ht with
      | node _ _ hframe => exact (hframe hkind).2.1

end Source.Tree

namespace Elision

theorem code_elide (text : String) (parsed : Parsed) (ranges : List LineRange)
    (switches : Switches) :
  (elide text parsed ranges switches).code
    = Edit.applyAll text ((ofParsed text parsed ranges switches).edits parsed.tree)
  := by
  simp [elide, edits, ofParsed, Function.comp_def]

/-- The bytes that may go, `comments` being those of the text. -/
inductive Droppable (e : Elision) (root : Tree) (comments : List Comment) (pos : Nat) : Prop where
  /-- A byte of a directive. -/
  | directive {s : Span} (hs : s ∈ e.directives) (hpos : s.Has pos)
  /-- A byte of a node all lines of which lie in one range. -/
  | node {t : Tree} (ht : root.Below t) (hgoes : e.excluded t.span = true) (hpos : t.span.Has pos)
  /-- A byte of a comment between a member of a series that goes and its separator, or the separator
  itself. -/
  | gap {rule : Rule} {items : List Tree} {t : Tree} {sep : Nat}
      (hseries : root.Below (.series rule items)) (ht : t ∈ items)
      (hgoes : e.excluded t.span = true)
      (hsep : e.separatorAfter? rule.separators t.span.hi = some sep) (hlo : t.span.hi ≤ pos)
      (hpos : pos = sep ∨ pos < sep ∧ ∃ c ∈ comments, c.span.Has pos)
  /-- The separator behind the last member of a series that stays, when members behind it go. -/
  | loose {rule : Rule} {items : List Tree} {kept : Tree}
      (hseries : root.Below (.series rule items)) (hkept : e.IsLastKept items kept)
      (hsep : e.separatorAfter? rule.separators kept.span.hi = some pos)
  /-- A byte of an element one of whose tags goes. -/
  | element {place : Source.Place} {span : Span} {parts : List Tree} {tag : Tree}
      (ht : root.Below (.node (.element place) span parts)) (htag : tag ∈ parts)
      (hkind : isTag tag = true) (hgoes : e.excluded tag.span = true) (hpos : span.Has pos)
  /-- A byte of braces that hold directives and no other comment. -/
  | container {t : Tree} (ht : root.Below t) (hempty : isEmptyContainer t = true)
      (hholds : e.holdsDirectives t.span = true) (hpos : t.span.Has pos)

variable {e : Elision} {root t : Tree} {comments : List Comment} {edit : Edit}

/-! ### Separators -/

theorem utf8Size_of_mem_separators {rule : Rule} {c : Char} (h : c ∈ rule.separators) :
  c.utf8Size = 1
  := by
  obtain rfl | rfl := eq_of_mem_separators h
  · rfl
  · rfl

theorem less_not_mem_separators (rule : Rule) :
  '<' ∉ rule.separators
  := by
  cases rule <;> decide

theorem isSeparated_of_separatorAfter {rule : Rule} {pos sep : Nat}
    (hpos : Boundary e.text pos) (hsep : e.separatorAfter? rule.separators pos = some sep) :
  rule.isSeparated = true
  := by
  obtain ⟨-, c, hc, -⟩ := charAt_separatorAfter hpos hsep
  cases rule with
  | list | declarators | members => rfl
  | block | lone | children => simp [Rule.separators] at hc

/-- A separator is a character of one byte. -/
theorem boundary_separator {rule : Rule} {pos sep : Nat} (hpos : Boundary e.text pos)
    (hsep : e.separatorAfter? rule.separators pos = some sep) :
  pos ≤ sep ∧ Boundary e.text sep ∧ Boundary e.text (sep + 1)
  := by
  obtain ⟨hle, c, hc, rest, hrest⟩ := charAt_separatorAfter hpos hsep
  refine ⟨hle, hrest.boundary, ?_⟩
  rw [← utf8Size_of_mem_separators hc]
  exact hrest.cons.boundary

/-! ### Elements -/

theorem isElement_of_survives (h : e.survives t = true) :
  isElement t = true
  := by
  rw [survives, Bool.and_eq_true] at h
  exact h.1

theorem lt_of_isElement (h : t.Laid e.text comments) (ht : isElement t = true) :
  t.span.lo < t.span.hi
  := by
  cases h with
  | @node kind _ _ _ _ hframe =>
      cases kind with
      | element place => exact (hframe rfl).1
      | _ => simp [isElement, Tree.kind?] at ht
  | series => simp [isElement, Tree.kind?] at ht

/-- A child that takes the place of an element lies inside of it. -/
theorem child_inside {place : Source.Place} {span : Span} {parts : List Tree}
    (h : (Source.Tree.node (.element place) span parts).Laid e.text comments)
    (ht : t ∈ childrenOf parts) (hsurvives : e.survives t = true) :
  t.Placed e.text ∧ span.lo ≤ t.span.lo ∧ t.span.hi ≤ span.hi
  := by
  obtain ⟨p, hp, ht⟩ := List.mem_flatMap.mp ht
  cases h with
  | node hparts hbounded _ =>
      cases p with
      | node kind span parts => simp at ht
      | series rule items =>
          cases rule with
          | children =>
              cases hparts _ hp with
              | series hitems hplaced _ =>
                  refine ⟨hplaced t ht, ?_⟩
                  have hlt := lt_of_isElement (hitems t ht) (isElement_of_survives hsurvives)
                  obtain hbounded | hstray := hbounded _ hp
                  · cases hbounded with
                    | series hitems => exact (hitems t ht).of_lt hlt
                  · simp [Tree.Stray, Tree.isDecorator, Tree.kind?] at hstray
          | _ => simp at ht

/-! ### Edits -/

/-- Edits with a reason start and end between characters. -/
theorem Reason.placed (hlaid : root.Laid e.text comments) (h : e.Reason root edit) :
  edit.Placed e.text
  := by
  cases h with
  | node ht _ _ | container ht _ _ =>
      obtain ⟨-, hle, hlo, hhi⟩ := hlaid.placed ht
      exact ⟨hle, hlo, hhi⟩
  | member hseries ht _ _ hsep =>
      obtain ⟨-, hle, hlo, hhi⟩ := hlaid.placed (.item hseries ht)
      obtain ⟨hle', -, hsep⟩ := boundary_separator hhi hsep
      exact ⟨by simp only; omega, hlo, hsep⟩
  | loose hseries hkept hsep =>
      obtain ⟨front, back, rfl, -⟩ := hkept
      obtain ⟨-, -, -, hhi⟩ := hlaid.placed (.item hseries (List.mem_append_right _ List.mem_cons_self))
      obtain ⟨-, hlo, hsep⟩ := boundary_separator hhi hsep
      exact ⟨Nat.le_succ _, hlo, hsep⟩
  | collapse ht _ _ =>
      obtain ⟨-, hle, hlo, hhi⟩ := hlaid.placed (.frame ht rfl)
      exact ⟨hle, hlo, hhi⟩
  | front ht _ hchild hsurvives =>
      obtain ⟨-, -, hlo, -⟩ := hlaid.placed (.frame ht rfl)
      obtain ⟨⟨-, -, hlo', -⟩, hle, -⟩ := child_inside (hlaid.of_below ht) hchild hsurvives
      exact ⟨hle, hlo, hlo'⟩
  | back ht _ hchild hsurvives =>
      obtain ⟨-, -, -, hhi⟩ := hlaid.placed (.frame ht rfl)
      obtain ⟨⟨-, -, -, hhi'⟩, -, hle⟩ := child_inside (hlaid.of_below ht) hchild hsurvives
      exact ⟨hle, hhi', hhi⟩

theorem Reason.mem_replacements (h : e.Reason root edit) :
  edit.replacement ∈ replacements
  := by
  cases h with
  | node _ _ hr | collapse _ _ hr => exact hr
  | _ => simp [replacements]

/-- An element one of whose tags goes may go. -/
theorem Droppable.of_straddles {place : Source.Place} {span : Span} {parts : List Tree} {pos : Nat}
    (ht : root.Below (.node (.element place) span parts)) (hgoes : e.straddles parts = true)
    (hpos : span.Has pos) :
  e.Droppable root comments pos
  := by
  obtain ⟨tag, htag, hgoes⟩ := List.any_eq_true.mp hgoes
  rw [Bool.and_eq_true] at hgoes
  exact .element ht htag hgoes.1 hgoes.2 hpos

/-- What an edit with a reason takes out may go, blanks apart. -/
theorem Reason.droppable {pos : Nat} {c : Char} (hlaid : root.Laid e.text comments)
    (hends : ∀ k ∈ comments, k.EndsLine e.text) (h : e.Reason root edit)
    (hc : CharAt e.text pos c) (hblank : isBlank c = false) (hpos : edit.Covers pos) :
  e.Droppable root comments pos
  := by
  obtain ⟨hlo, hhi⟩ := hpos
  cases h with
  | node ht hgoes _ => exact .node ht.below hgoes ⟨hlo, hhi⟩
  | container ht hempty hholds => exact .container ht.below hempty hholds ⟨hlo, hhi⟩
  | @member rule items t sep hseries ht hhole hgoes hsep =>
      have hplaced := hlaid.placed (.item hseries ht)
      by_cases hin : pos < t.span.hi
      · exact .node (.part hseries ht) hgoes ⟨hlo, hin⟩
      · refine .gap hseries ht hgoes hsep (by omega) ?_
        simp only at hhi
        obtain rfl | hlt : pos = sep ∨ pos < sep := by omega
        · exact .inl rfl
        · have hsettled : Settled e.text comments t.span.hi := by
            cases hlaid.of_below hseries with
            | series _ _ hsettled =>
                have := hsettled (isSeparated_of_separatorAfter hplaced.hi hsep) t ht
                exact this.resolve_left (by simpa [isHole] using hhole)
          exact .inr ⟨hlt, comment_of_lt_separator hplaced.hi hsep hsettled hends hc hblank
            (by omega) hlt⟩
  | loose hseries hkept hsep =>
      simp only at hlo hhi
      obtain rfl : pos = _ := Nat.le_antisymm (by omega) hlo
      exact .loose hseries hkept hsep
  | collapse ht hgoes _ => exact .of_straddles ht hgoes ⟨hlo, hhi⟩
  | front ht hgoes hchild hsurvives =>
      obtain ⟨⟨-, hle, -⟩, -, hle'⟩ := child_inside (hlaid.of_below ht) hchild hsurvives
      exact .of_straddles ht hgoes ⟨hlo, by simp only at hhi; omega⟩
  | back ht hgoes hchild hsurvives =>
      obtain ⟨⟨-, hle, -⟩, hle', -⟩ := child_inside (hlaid.of_below ht) hchild hsurvives
      exact .of_straddles ht hgoes ⟨by simp only at hlo; omega, hhi⟩

/-! ### The whole elision -/

variable {text : String} {parsed : Parsed} {ranges : List LineRange} {switches : Switches}

theorem mem_directives_iff {s : Span} :
  s ∈ (ofParsed text parsed ranges switches).directives ↔
    ∃ c ∈ parsed.comments, isDirective c.text switches = true ∧ c.span = s
  := by
  simp [ofParsed, and_assoc]

/-- An edit of an elision has a reason or deletes a directive. -/
theorem mem_edits_cases (h : edit ∈ e.edits root) :
  e.Reason root edit ∨ ∃ s ∈ e.directives, edit = ⟨s.lo, s.hi, ""⟩
  := by
  obtain h | h := List.mem_append.mp h
  · exact .inl (reasoned_visit "null" root .root null_mem_replacements edit h)
  · obtain ⟨s, hs, rfl⟩ := List.mem_map.mp h
    exact .inr ⟨s, hs, rfl⟩

theorem placed_of_mem_edits (hsound : parsed.Sound text.toList)
    (h : edit ∈ (ofParsed text parsed ranges switches).edits parsed.tree) :
  edit.Placed text.toList
  := by
  obtain h | ⟨s, hs, rfl⟩ := mem_edits_cases h
  · exact h.placed hsound.tree
  · obtain ⟨c, hc, -, rfl⟩ := mem_directives_iff.mp hs
    obtain ⟨mid, rest, hstands, hhi, -⟩ := hsound.comments c hc
    refine ⟨by simp only; omega, hstands.boundary, ?_⟩
    rw [hhi]
    exact hstands.append.boundary

/-- One of three texts takes the place of what is replaced. -/
theorem replacement_of_mem_pieces {q : Edit.Piece} {r : String} (hsound : parsed.Sound text.toList)
    (hq : q ∈ Edit.pieces text ((ofParsed text parsed ranges switches).edits parsed.tree))
    (hr : q.replacement = some r) :
  r ∈ replacements
  := by
  obtain ⟨edit, hedit, rfl⟩ := Edit.exists_replacement
    (fun edit hedit => placed_of_mem_edits hsound hedit) hq hr
  obtain h | ⟨s, -, rfl⟩ := mem_edits_cases hedit
  · exact h.mem_replacements
  · exact nothing_mem_replacements

/-- What is replaced of a text may go, blanks apart. -/
theorem droppable_of_replaced {q : Edit.Piece} {r : String} (hsound : parsed.Sound text.toList)
    (hends : ∀ c ∈ parsed.comments, c.EndsLine text.toList)
    (hq : q ∈ Edit.pieces text ((ofParsed text parsed ranges switches).edits parsed.tree))
    (hr : q.replacement = some r) {pos : Nat} {c : Char} (hc : CharAt text.toList pos c)
    (hblank : isBlank c = false) (hlo : q.lo ≤ pos) (hhi : pos < q.hi) :
  (ofParsed text parsed ranges switches).Droppable parsed.tree parsed.comments pos
  := by
  obtain ⟨edit, hedit, hpos⟩ := Edit.exists_mem_of_replaced
    (fun edit hedit => placed_of_mem_edits hsound hedit) hq hr hc hblank hlo hhi
  obtain h | ⟨s, hs, rfl⟩ := mem_edits_cases hedit
  · exact h.droppable hsound.tree hends hc hblank hpos
  · exact .directive hs hpos

end Elision

end Prune
