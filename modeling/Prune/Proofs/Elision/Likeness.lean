import Prune.Elision

/-!
# Elisions that find the like

Two elisions that delete the same nodes differ at most in the separators that they find
(`Elision.Alike`).  What they find in a tree is then related as what they find for a single member is,
if the relation goes from parts to the whole (`Elision.Alike.visit`).
-/

namespace Prune

open Source (Span Tree)

namespace Elision

variable {R : Found → Found → Prop} {e' e : Elision}

/-- Whether two elisions delete the same nodes, and what they find for a member is related. -/
structure Alike (R : Found → Found → Prop) (e' e : Elision) : Prop where
  refl (a : Found) : R a a
  append {a b c d : Found} (hab : R a b) (hcd : R c d) : R (a ++ c) (b ++ d)
  excluded : e'.excluded = e.excluded
  holdsDirectives : e'.holdsDirectives = e.holdsDirectives
  goneWithSeparator (separators : List Char) (s : Span) :
    R (e'.goneWithSeparator separators s) (e.goneWithSeparator separators s)
  looseSeparator (separators : List Char) (kept : Option Span) :
    R (e'.looseSeparator separators kept) (e.looseSeparator separators kept)

theorem rel_ite {p : Prop} [Decidable p] {a b c d : Found} (hab : R a b) (hcd : R c d) :
  R (if p then a else c) (if p then b else d)
  := by
  split
  · exact hab
  · exact hcd

namespace Alike

theorem survives (h : Alike R e' e) :
  e'.survives = e.survives
  := by
  funext t
  rw [Elision.survives, h.excluded, Elision.survives]

theorem goesOrHole (h : Alike R e' e) :
  e'.goesOrHole = e.goesOrHole
  := by
  funext t
  rw [Elision.goesOrHole, h.excluded, Elision.goesOrHole]

theorem straddles (h : Alike R e' e) :
  e'.straddles = e.straddles
  := by
  funext parts
  simp only [Elision.straddles, h.excluded]

theorem lastKept? (h : Alike R e' e) :
  e'.lastKept? = e.lastKept?
  := by
  funext items
  simp only [Elision.lastKept?, h.goesOrHole]

mutual

/-- What is found in a tree is related. -/
theorem visit (h : Alike R e' e) (r : String) (t : Tree) :
  R (e'.visit r t) (e.visit r t)
  := by
  cases t with
  | node kind span parts =>
      obtain ⟨hall, hsurvivors, -⟩ := h.visitLists parts
      cases kind with
      | element place =>
          by_cases hplace : place = .attribute
          · subst hplace
            simpa only [Elision.visit] using hall
          · rw [visit.eq_2 _ _ _ _ _ hplace, visit.eq_2 _ _ _ _ _ hplace, h.excluded, h.straddles,
              h.survives]
            apply rel_ite (h.refl _)
            apply rel_ite _ hall
            split
            · apply h.append (h.refl _) (hsurvivors r)
            · apply h.refl
      | fragment place =>
          cases place with
          | expression =>
              simp only [Elision.visit, h.excluded]
              apply rel_ite (h.refl _) hall
          | _ => simpa only [Elision.visit] using hall
      | _ => simpa only [Elision.visit] using hall
  | series rule items =>
      obtain ⟨-, -, -, hblock, hlone, hchildren, hseparated⟩ := h.visitLists items
      cases rule with
      | block => simpa only [Elision.visit] using hblock
      | lone => simpa only [Elision.visit] using hlone
      | list =>
          simp only [Elision.visit, h.lastKept?]
          apply hseparated
      | declarators =>
          simp only [Elision.visit, h.lastKept?, h.goesOrHole]
          apply rel_ite (h.refl _)
          apply hseparated
      | members =>
          simp only [Elision.visit]
          apply hseparated
      | children => simpa only [Elision.visit] using hchildren

theorem visitLists (h : Alike R e' e) (ts : List Tree) :
  R (e'.visitAll ts) (e.visitAll ts) ∧
    (∀ r, R (e'.visitSurvivors r ts) (e.visitSurvivors r ts)) ∧
    (∀ r, R (e'.visitSurvivor r ts) (e.visitSurvivor r ts)) ∧
    R (e'.visitBlock ts) (e.visitBlock ts) ∧
    R (e'.visitLone ts) (e.visitLone ts) ∧
    R (e'.visitChildren ts) (e.visitChildren ts) ∧
    ∀ separators tidy kept, R (e'.visitSeparated separators tidy kept ts)
      (e.visitSeparated separators tidy kept ts)
  := by
  cases ts with
  | nil =>
      simp only [visitAll, visitBlock, visitLone, visitChildren, visitSurvivors, visitSeparated,
        visitSurvivor, h.refl, implies_true, and_self]
  | cons t ts =>
      obtain ⟨hall, hsurvivors, hsurvivor, hblock, hlone, hchildren, hseparated⟩ := h.visitLists ts
      have hvisit (r : String) := h.visit r t
      refine ⟨?_, ?_, ?_, ?_, ?_, ?_, ?_⟩
      · simp only [visitAll]
        apply h.append (hvisit "null") hall
      · intro r
        cases t with
        | node kind span parts => simpa only [visitSurvivors] using hsurvivors r
        | series rule items =>
            cases rule with
            | children =>
                simp only [visitSurvivors]
                apply h.append ((h.visitLists items).2.2.1 r) (hsurvivors r)
            | _ => simpa only [visitSurvivors] using hsurvivors r
      · intro r
        simp only [visitSurvivor, h.survives]
        apply h.append _ (hsurvivor r)
        apply rel_ite (hvisit r) (h.refl _)
      · simp only [visitBlock, h.excluded]
        apply h.append _ hblock
        apply rel_ite (h.refl _) (hvisit _)
      · simp only [visitLone, h.excluded]
        apply h.append _ hlone
        apply rel_ite (h.refl _) (hvisit _)
      · simp only [visitChildren, h.excluded, h.holdsDirectives]
        apply h.append _ hchildren
        apply rel_ite (h.refl _)
        apply rel_ite (h.refl _) (hvisit _)
      · intro separators tidy kept
        simp only [visitSeparated, h.excluded, h.goesOrHole]
        apply h.append _ (hseparated separators tidy kept)
        apply rel_ite (h.refl _)
        apply rel_ite _ (hvisit _)
        apply h.append (h.goneWithSeparator _ _)
        apply rel_ite _ (h.refl _)
        apply h.looseSeparator

end

end Alike

/-- Elisions find the same if they differ in the order of comments alone. -/
theorem visit_eq_of_perm (htext : e'.text = e.text) (hstarts : e'.starts = e.starts)
    (hranges : e'.ranges = e.ranges) (hdirectives : e'.directives.Perm e.directives)
    (hothers : e'.others.Perm e.others) :
  e'.visit = e.visit
  := by
  have hseparator : e'.separatorAfter? = e.separatorAfter? := by
    funext separators pos
    rw [separatorAfter?, htext, separatorAfter?]
  have halike : Alike Eq e' e := by
    constructor
    · exact fun a => rfl
    · intro a b c d hab hcd
      rw [hab, hcd]
    · funext s
      rw [excluded, hstarts, hranges, excluded]
    · funext s
      rw [Elision.holdsDirectives, hdirectives.any_eq, hothers.any_eq, Elision.holdsDirectives]
    · intro separators s
      rw [goneWithSeparator, hseparator, goneWithSeparator]
    · intro separators kept
      rw [looseSeparator, hseparator, looseSeparator]
  funext r t
  exact halike.visit r t

end Elision

end Prune
