import Mathlib.Data.List.Forall2
import Prune.Proofs.Source.Layout

/-!
# Layout of targets

An expression that turns out to be a pattern (`toPattern`) keeps its place: the pattern is laid out
where the expression was (`Reshapes`).
-/

namespace Prune.Source.Grammar

open Prune.Source.Parser Text

/-- Whether a tree lies where another lay, and may take its place in a series. -/
structure Reshapes (t p : Tree) : Prop where
  span : p.span = t.span
  isNode : p.kind?.isSome = t.kind?.isSome
  hole : t.kind? = some .hole → p.kind? = some .hole
  laid : ∀ {text comments}, t.Laid text comments → p.Laid text comments
  bounded : ∀ {lo hi}, t.Bounded lo hi → p.Bounded lo hi

namespace Reshapes

variable {t p : Tree} {ts ps : List Tree} {kind kind' : Kind} {span : Span}

theorem refl (t : Tree) :
  Reshapes t t
  := ⟨rfl, rfl, id, id, id⟩

theorem exists_mem (h : List.Forall₂ Reshapes ts ps) (hp : p ∈ ps) :
  ∃ t ∈ ts, Reshapes t p
  := by
  induction h with
  | nil => simp at hp
  | cons hhead _ ih =>
      obtain rfl | hp := List.mem_cons.mp hp
      · exact ⟨_, List.mem_cons_self, hhead⟩
      · obtain ⟨t, ht, h⟩ := ih hp
        exact ⟨t, List.mem_cons_of_mem _ ht, h⟩

/-- A node of another kind with reshaped parts. -/
theorem node (h : List.Forall₂ Reshapes ts ps) (hkind : kind ≠ .declaration .classDecl)
    (hhole : kind ≠ .hole) (hkind' : kind'.isFrame = false) :
  Reshapes (.node kind span ts) (.node kind' span ps)
  := by
  refine ⟨rfl, rfl, fun h => by simp [Tree.kind?, hhole] at h, fun hlaid => ?_, fun hbounded => ?_⟩
  · refine .node (fun p hp => ?_) (fun p hp => ?_) (by simp [hkind'])
    · obtain ⟨t, ht, h⟩ := exists_mem h hp
      cases hlaid with
      | node hparts _ _ => exact h.laid (hparts t ht)
    · obtain ⟨t, ht, h⟩ := exists_mem h hp
      exact .inl (h.bounded (hlaid.bounded_part ht hkind))
  · cases hbounded with
    | node hle hin => exact .node hle hin

/-- A node of another kind with the same parts. -/
theorem rename (hkind : kind ≠ .declaration .classDecl) (hhole : kind ≠ .hole)
    (hkind' : kind'.isFrame = false) :
  Reshapes (.node kind span ts) (.node kind' span ts)
  := node (List.forall₂_same.mpr fun t _ => refl t) hkind hhole hkind'

/-- The members of a series are laid out with it. -/
theorem of_mem_flatten {text : List Char} {comments : List Comment} {lo hi : Nat}
    (hp : p ∈ Grammar.flatten t) (hlaid : t.Laid text comments) (hbounded : t.Bounded lo hi) :
  p.Laid text comments ∧ p.Bounded lo hi
  := by
  cases t with
  | node kind span parts =>
      obtain rfl := List.mem_singleton.mp hp
      exact ⟨hlaid, hbounded⟩
  | series rule items =>
      cases hlaid with
      | series hitems =>
          cases hbounded with
          | series hitems' => exact ⟨hitems p hp, hitems' p hp⟩

/-- The members of the series of a node become its parts. -/
theorem flatten (hkind : kind ≠ .declaration .classDecl) (hhole : kind ≠ .hole)
    (hkind' : kind'.isFrame = false) :
  Reshapes (.node kind span ts) (.node kind' span (ts.flatMap Grammar.flatten))
  := by
  refine ⟨rfl, rfl, fun h => by simp [Tree.kind?, hhole] at h, ?_, fun hbounded => ?_⟩
  · intro text comments hlaid
    have hparts (p : Tree) (hp : p ∈ ts.flatMap Grammar.flatten) :
        p.Laid text comments ∧ p.Bounded span.lo span.hi := by
      obtain ⟨t, ht, hp⟩ := List.mem_flatMap.mp hp
      exact of_mem_flatten hp (hlaid.of_mem_parts ht) (hlaid.bounded_part ht hkind)
    exact .node (fun p hp => (hparts p hp).1) (fun p hp => .inl (hparts p hp).2) (by simp [hkind'])
  · cases hbounded with
    | node hle hin => exact .node hle hin

theorem trans {q : Tree} (h : Reshapes t p) (h' : Reshapes p q) :
  Reshapes t q
  := ⟨h'.span.trans h.span, h'.isNode.trans h.isNode, h'.hole ∘ h.hole, h'.laid ∘ h.laid,
    h'.bounded ∘ h.bounded⟩

theorem holds {text : List Char} {lo : Nat} {e : Extent} (h : Reshapes t p)
    (ht : Holds text lo t e) :
  Holds text lo p e
  := ⟨h.laid ht.laid, h.bounded ht.bounded⟩

theorem fits {text : List Char} {lo : Nat} {e : Extent} (h : Reshapes t p) (ht : Fits text lo t e) :
  Fits text lo p e
  := by
  obtain ⟨⟨hholds, ⟨hnode, hle, hlo, hhi⟩, hle', hstop⟩, hsettled⟩ := ht
  rw [← h.span] at hle hlo hhi hle' hstop hsettled
  exact ⟨⟨h.holds hholds, ⟨h.isNode.trans hnode, hle, hlo, hhi⟩, hle', hstop⟩, hsettled⟩

theorem series {rule : Rule} (h : List.Forall₂ Reshapes ts ps) :
  Reshapes (.series rule ts) (.series rule ps)
  := by
  refine ⟨rfl, rfl, by simp [Tree.kind?], fun hlaid => ?_, fun hbounded => ?_⟩
  · cases hlaid with
    | series hitems hplaced hsettled =>
        refine .series (fun p hp => ?_) (fun p hp => ?_) fun hrule p hp => ?_
        all_goals obtain ⟨t, ht, h⟩ := exists_mem h hp
        · exact h.laid (hitems t ht)
        · obtain ⟨hnode, hle, hlo, hhi⟩ := hplaced t ht
          exact ⟨h.isNode.trans hnode, by rwa [h.span], by rwa [h.span], by rwa [h.span]⟩
        · rw [h.span]
          exact (hsettled hrule t ht).imp_left h.hole
  · cases hbounded with
    | series hitems =>
        refine .series fun p hp => ?_
        obtain ⟨t, ht, h⟩ := exists_mem h hp
        exact h.bounded (hitems t ht)

end Reshapes

mutual

/-- The pattern that an expression spells out lies where the expression lay. -/
theorem reshapes_toPattern {assigning flawed : Bool} {p : Tree} (t : Tree)
    (h : toPattern assigning t = some (p, flawed)) :
  Reshapes t p
  := by
  unfold toPattern at h
  split at h
  · next span parts =>
    obtain ⟨⟨ps, _⟩, hps, heq⟩ := Option.map_eq_some_iff.mp h
    obtain ⟨rfl, -⟩ := Prod.mk.inj heq
    have hnode : Reshapes (.node .array span parts) (.node (.pattern .array) span ps) :=
      .node (reshapes_elementPatterns parts hps) (by simp) (by simp) rfl
    exact hnode.trans (.flatten (by simp) (by simp) rfl)
  · next span parts =>
    obtain ⟨⟨ps, _⟩, hps, heq⟩ := Option.map_eq_some_iff.mp h
    obtain ⟨rfl, -⟩ := Prod.mk.inj heq
    exact .node (reshapes_elementPatterns parts hps) (by simp) (by simp) rfl
  · next span key value =>
    obtain ⟨⟨q, _⟩, hq, heq⟩ := Option.map_eq_some_iff.mp h
    obtain ⟨rfl, -⟩ := Prod.mk.inj heq
    exact .node (.cons (.refl key) (.cons (reshapes_toPattern value hq) .nil)) (by simp) (by simp) rfl
  · obtain ⟨rfl, -⟩ := Prod.mk.inj (Option.some.inj h)
    exact .rename (by simp) (by simp) rfl
  · obtain ⟨rfl, -⟩ := Prod.mk.inj (Option.some.inj h)
    exact .rename (by simp) (by simp) rfl
  · simp at h
  · next span e =>
    obtain ⟨⟨q, _⟩, hq, heq⟩ := Option.map_eq_some_iff.mp h
    obtain ⟨rfl, -⟩ := Prod.mk.inj heq
    exact .node (.cons (reshapes_toPattern e hq) .nil) (by simp) (by simp) rfl
  · obtain ⟨rfl, -⟩ := Prod.mk.inj (Option.some.inj h)
    exact .rename (by simp) (by simp) rfl
  · next rule items =>
    obtain ⟨⟨ps, _⟩, hps, heq⟩ := Option.map_eq_some_iff.mp h
    obtain ⟨rfl, -⟩ := Prod.mk.inj heq
    exact .series (reshapes_elementPatterns items hps)
  · split at h
    all_goals
      obtain ⟨rfl, -⟩ := Prod.mk.inj (Option.some.inj h)
      exact .refl t

theorem reshapes_elementPatterns {assigning flawed : Bool} {ps : List Tree} (ts : List Tree)
    (h : elementPatterns assigning ts = some (ps, flawed)) :
  List.Forall₂ Reshapes ts ps
  := by
  cases ts with
  | nil =>
      obtain ⟨rfl, -⟩ := Prod.mk.inj (Option.some.inj h)
      exact .nil
  | cons t ts =>
      rw [elementPatterns] at h
      obtain ⟨⟨p, _⟩, hp, h⟩ := Option.bind_eq_some_iff.mp h
      obtain ⟨⟨ps, _⟩, hps, heq⟩ := Option.map_eq_some_iff.mp h
      obtain ⟨rfl, -⟩ := Prod.mk.inj heq
      exact .cons (reshapes_toPattern t hp) (reshapes_elementPatterns ts hps)

end

end Prune.Source.Grammar
