import Mathlib.Data.List.Basic
import Prune.Proofs.Reparse

/-!
# Comments that have an effect

A comment is looked at twice: the resolver reads the directive in it, and `isDirective` decides
whether it vanishes from the output.  The two agree.  A directive is known if it is one of a chain or
if its switch is known (`Directive.isKnown`), a comment vanishes if its directive is known
(`isDirective_eq_any`), and the resolver passes over all other directives
(`Resolver.run_filter_isKnown`).  Directives are sorted by line in between, and sorting does not mix
up those that are left when others go (`filter_sortBy`).
-/

namespace Prune

/-! ### Directives that are known -/

/-- Whether a directive is one of a chain, or one whose switch is known. -/
def Directive.isKnown (switches : Switches) (d : Directive) : Bool :=
  match d.kind with
  | .branch _ => true
  | .switch name => (switches.flag? name).isSome

/-- A comment vanishes if its directive is known, whatever line it stands on. -/
theorem isDirective_eq_any (text : String) (switches : Switches) (line : Nat) :
  isDirective text switches = (Directive.parse text line).any (Directive.isKnown switches)
  := by
  rw [Directive.parse_eq_map]
  cases h : Directive.parse text 0 with
  | none => simp [isDirective, h]
  | some d =>
      cases hk : d.kind with
      | branch keyword => simp [isDirective, h, Directive.isKnown, hk]
      | switch name => simp [isDirective, h, Directive.isKnown, hk]

/-- The directives of the comments that vanish are those that are known. -/
theorem collectDirectives_filter (comments : List (String × Nat)) (switches : Switches) :
  collectDirectives (comments.filter fun c => isDirective c.1 switches)
    = (collectDirectives comments).filter (Directive.isKnown switches)
  := by
  rw [collectDirectives, collectDirectives, filter_sortBy]
  · rw [List.filterMap_filter, List.filter_filterMap]
    congr
    funext c
    rw [isDirective_eq_any c.1 switches c.2]
    cases Directive.parse c.1 c.2 with
    | none => rfl
    | some d => simp [Option.filter]
  · simp only [decide_eq_true_eq]
    omega
  · simp only [decide_eq_true_eq, decide_eq_false_iff_not]
    omega

namespace Resolver

/-- The resolver passes over directives that are not known. -/
theorem run_filter_isKnown (r : Resolver) (s : State) (ds : List Directive) :
  r.run s (ds.filter (Directive.isKnown r.switches)) = r.run s ds
  := by
  induction ds generalizing s with
  | nil => rfl
  | cons d ds ih =>
      cases hd : d.isKnown r.switches with
      | true => rw [List.filter_cons_of_pos hd, run_cons, run_cons, ih]
      | false =>
          have happly : r.apply s d = s := by
            apply apply_eq_of_step
            cases hk : d.kind with
            | branch keyword => simp [Directive.isKnown, hk] at hd
            | switch name =>
                have hflag : r.switches.flag? name = none := by
                  simpa [Directive.isKnown, hk] using hd
                exact .unswitched hk (.inr (by simp [hflag]))
          rw [List.filter_cons_of_neg (by simp [hd]), run_cons, happly, ih]

theorem resolve_filter_isDirective (r : Resolver) (comments : List (String × Nat)) :
  r.resolve (collectDirectives (comments.filter fun c => isDirective c.1 r.switches))
    = r.resolve (collectDirectives comments)
  := by
  rw [collectDirectives_filter]
  apply run_filter_isKnown

/-- The comments that vanish are those that have an effect: without the others the resolver emits
the same ranges and asks for the same conditions, and with the others alone it does nothing.  So any
comment with an influence on the ranges or the conditions vanishes, wherever it stands. -/
theorem resolve_recognised (r : Resolver) :
  (∀ comments,
    let all := r.resolve (collectDirectives comments)
    let vanishing := r.resolve
      (collectDirectives (comments.filter fun c => isDirective c.1 r.switches))
    let staying := r.resolve
      (collectDirectives (comments.filter fun c => !isDirective c.1 r.switches))
    vanishing.ranges = all.ranges ∧ vanishing.asked = all.asked ∧
      staying.ranges = [] ∧ staying.asked = []) ∧
  ∀ front comment back,
    let all := r.resolve (collectDirectives (front ++ comment :: back))
    let without := r.resolve (collectDirectives (front ++ back))
    isDirective comment.1 r.switches = true ∨
      without.ranges = all.ranges ∧ without.asked = all.asked
  := by
  refine ⟨?_, ?_⟩
  · intro comments all vanishing staying
    have hvanishing : vanishing = all := resolve_filter_isDirective r comments
    have hstaying : staying = {} := by
      have h := resolve_filter_isDirective r
        (comments.filter fun c => !isDirective c.1 r.switches)
      have hnone : (comments.filter fun c => !isDirective c.1 r.switches).filter
          (fun c => isDirective c.1 r.switches) = [] := by
        simp
      rw [hnone] at h
      exact h.symm
    rw [hvanishing, hstaying]
    exact ⟨rfl, rfl, rfl, rfl⟩
  · intro front comment back all without
    cases h : isDirective comment.1 r.switches with
    | true => exact .inl rfl
    | false =>
        have heq : without = all := by
          change r.resolve _ = r.resolve _
          rw [← resolve_filter_isDirective r (front ++ back),
            ← resolve_filter_isDirective r (front ++ comment :: back)]
          simp [List.filter_append, h]
        rw [heq]
        exact .inr ⟨rfl, rfl⟩

end Resolver

end Prune
