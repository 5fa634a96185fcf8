import Prune.Proofs.Source.Grammar.Functions
import Prune.Proofs.Source.Grammar.Targets
import Prune.Source.Grammar.Expressions

/-!
# Layout of expressions

Expressions are laid out as they were read.  What is read behind an operand (`binaryFrom`) starts
where the operand starts; an operand that is missing takes no bytes, and the operator that follows
it is read.  The items between parentheses follow each other, so that they can form a sequence.
-/

namespace Prune.Source.Grammar

open Prune.Source.Parser Text

variable {text : List Char} {r : Rules} {c : Context} [Rules.Reads text r]
  {H : State → Prop} {K : Extent → Prop} {L M lo : Nat}

/-! ### Operators -/

/-- An operator may be read in the place of the mark that it starts with. -/
theorem offers_glue {s : State} (hs : s.Sound text) :
  s.Offers text s.tok.glue
  := by
  obtain ⟨-, hrest, hle, -⟩ := hs.tok.glue
  refine ⟨hrest, ?_, hle, ?_⟩
  all_goals
    unfold Token.glue
    split
    · split <;> rfl
    · rfl

theorem precedence?_pos {op : String} {strength : Nat} (h : precedence? op = some strength) :
  0 < strength
  := by
  unfold precedence? at h
  split at h <;> simp at h <;> omega

theorem operatorOf?_eq_some {t u : Token} {op : String} {strength : Nat}
    (h : operatorOf? c t = some (u, op, strength)) :
  u = t.glue ∧ 0 < strength
  := by
  have hmap {mark : String}
      (h : (precedence? mark).map (fun n => (t.glue, mark, n)) = some (u, op, strength)) :
      u = t.glue ∧ 0 < strength := by
    obtain ⟨n, hn, heq⟩ := Option.map_eq_some_iff.mp h
    simp only [Prod.mk.injEq] at heq
    exact ⟨heq.1.symm, heq.2.2 ▸ precedence?_pos hn⟩
  unfold operatorOf? at h
  split at h
  · exact hmap h
  · split at h
    · exact hmap h
    · simp at h
  · simp at h

instance : Quiet (operator? c) := by unfold operator?; infer_instance


theorem reads_castStep {left : Tree} (hlo : Boundary text lo) (hle : lo ≤ L)
    (hleft : ∀ e, K e → Holds text lo left e) :
  Reads text K L (castStep r c lo left) (Fits text lo)
  := by
  refine .ask fun isAs => .step fun _ => .step fun _ => .ite (fun _ => .node hlo rfl ?_) fun _ => ?_
  · grind
  · refine .step fun type => .node hlo rfl ?_
    grind

/-- What is read behind an operand starts where the operand starts. -/
theorem reads_behind {p : Parser Tree} {left : Tree} (hleft : ∀ e, K e → Fits text M left e)
    (hp : ∀ N, Boundary text left.span.lo → left.span.lo ≤ N →
      Reads text K N p (Fits text left.span.lo)) :
  Reads text K L p (Fits text M)
  := by
  refine .given (fun e h => (hleft e h).placed.lo) fun hlo => ?_
  refine .given (fun e h => (hleft e h).le) fun hM => .raise (fun _ => rfl) fun N _ hN => ?_
  have hle := hN left.span.lo fun e h => (hleft e h).self.le_extent
  exact ((hp N hlo hle).weaken (fun _ => id) (fun _ h => h.1) fun _ _ _ => id).lower hM

/-- Reads the operators behind an operand, which may be missing if an operator comes next. -/
theorem reads_binaryFrom_of {left : Tree} {least : Nat} (fuel : Nat)
    (hlo : Boundary text left.span.lo) (hle : left.span.lo ≤ L)
    (hholds : ∀ e, K e → Holds text left.span.lo left e)
    (hleft : (∀ e, K e → Fits text left.span.lo left e) ∨
      least = 0 ∧ ∀ s, H s → (operatorOf? c s.tok).isSome = true) :
  ReadsWhen text H State.extent State.extent K L (binaryFrom r c fuel left least)
    (Fits text left.span.lo)
  := by
  induction fuel generalizing H K L left least with
  | zero => exact .fail
  | succ fuel ih =>
      have ih' {K L M left least} (hleft : ∀ e, K e → Fits text M left e) :
          Reads text K L (binaryFrom r c fuel left least) (Fits text M) :=
        reads_behind hleft fun N hlo hle =>
          ih hlo hle (fun e h => (hleft e h).self.holds) (.inl fun e h => (hleft e h).self)
      refine .ask fun _ => .ask fun _ => .ask fun _ => .ite (fun _ => ?_) fun _ => ?_
      · refine .of_reads (.bind (reads_castStep hlo hle hholds) fun e => ih' ?_)
        exact fun _ h => h.2
      · refine .token fun t => ?_
        split
        · next hop =>
          obtain hleft | ⟨-, hsome⟩ := hleft
          · exact .pure hleft
          · refine .facing (φ := False) ?_ False.elim
            rintro s ⟨hs, rfl⟩ - -
            simpa [hop] using hsome s hs
        · next u op strength hop =>
          obtain ⟨rfl, hpos⟩ := operatorOf?_eq_some hop
          refine .ite (fun hweak => .pure (hleft.resolve_right ?_)) fun _ => ?_
          · omega
          · refine .bind (.extend (.take ?_)) fun _ => .step fun _ => .step fun operand => ?_
            · rintro s ⟨-, rfl⟩ hsound
              exact offers_glue hsound
            · refine .bind (ih' fun e h => h.2) fun right => .step fun _ => ?_
              refine .bind (.node hlo rfl ?_) fun e => ih' fun e h => h.2
              grind

theorem reads_binaryFrom {left : Tree} {least fuel : Nat} (hleft : ∀ e, K e → Fits text M left e) :
  Reads text K L (binaryFrom r c fuel left least) (Fits text M)
  := by
  refine reads_behind hleft fun N hlo hle => reads_binaryFrom_of fuel hlo hle ?_ (.inl ?_)
  · exact fun e h => (hleft e h).self.holds
  · exact fun e h => (hleft e h).self

instance (arrow : Bool) : Reading text (binary r c arrow) (Fits text) where
  reads _ _ := by
    refine .start fun lo hlo => .step fun left? => ?_
    split
    · refine .ite (fun _ => .pure ?_) fun _ => reads_binaryFrom ?_
      all_goals grind
    · refine .token fun t => ?_
      split
      · next hop =>
        refine .still (by simp) fun _ _ => ?_
        refine reads_binaryFrom_of _ hlo (Nat.le_refl _) (fun _ _ => holds_empty rfl) (.inr ⟨rfl, ?_⟩)
        rintro s ⟨-, rfl⟩
        simp [hop]
      · exact .fail

theorem reads_conditionalFrom {test : Tree} (hlo : Boundary text lo) (hle : lo ≤ L)
    (htest : ∀ e, K e → Fits text lo test e) :
  Reads text K L (conditionalFrom r c lo test) (Fits text lo)
  := by
  refine .step fun _ => .ite (fun _ => ?_) fun _ => .pure (by grind)
  refine .step fun yes => .step fun _ => .step fun no => .node hlo rfl ?_
  grind

instance (arrow : Bool) : Reading text (conditional r c arrow) (Fits text) where
  reads _ _ := by
    refine .start fun lo hlo => .step fun test => .ite (fun _ => .pure (by grind)) fun _ => ?_
    exact reads_conditionalFrom hlo (Nat.le_refl _) fun e h => h.2

/-! ### Assignments -/

instance (e : Tree) : Still (assignedPattern e) (Reshapes e) := by
  unfold assignedPattern
  split
  · next hp => exact .flawIf (.pure (reshapes_toPattern e hp))
  · exact .fail

instance (op : String) (e : Tree) : Still (target op e) (Reshapes e) := by
  unfold target
  split
  · exact .ite inferInstance .fail
  · exact .ite inferInstance .fail
  · exact .flawIf (.ite (.pure (.refl e)) .fail)

instance (e : Tree) : Still (asParameter e) (Reshapes e) := by
  unfold asParameter
  split
  · next hp => exact .flawIf (.pure (reshapes_toPattern e hp))
  · exact .fail

theorem assignOperatorOf?_eq_some {t u : Token} {op : String}
    (h : assignOperatorOf? t = some (u, op)) :
  u = t.glue
  := by
  unfold assignOperatorOf? at h
  split at h
  · split at h
    · obtain ⟨rfl, -⟩ := Prod.mk.inj (Option.some.inj h)
      rfl
    · simp at h
  · simp at h

theorem reads_assignFrom {left : Tree} (hlo : Boundary text lo) (hle : lo ≤ L)
    (hleft : ∀ e, K e → Fits text lo left e) :
  Reads text K L (assignFrom r c lo left) (Fits text lo)
  := by
  refine .token fun t => ?_
  split
  · exact .pure hleft
  · next hop =>
    obtain rfl := assignOperatorOf?_eq_some hop
    refine .still (by simp) fun p hp => .bind (.extend (.take ?_)) fun _ => ?_
    · rintro s ⟨-, rfl⟩ hsound
      exact offers_glue hsound
    · refine .step fun right => .node hlo rfl fun e h => ?_
      have hp := hp.holds (hleft e h.1.1).holds
      grind

instance : Reading text (yieldExpression r c) (Fits text) where
  reads _ _ := by
    refine .start fun lo hlo => .step fun _ => .step fun _ => .ask fun t => .ask fun _ => ?_
    refine .ask fun _ => .ite (fun _ => .node hlo rfl (by grind)) fun _ => ?_
    refine .step fun _ => .step fun e => .node hlo rfl ?_
    grind

instance : Reading text (plainAssignment r c) (Fits text) where
  reads _ _ := by
    refine .start fun lo hlo => .ask fun _ => .ite (fun _ => .same) fun _ => .ask fun t => ?_
    refine .step fun e => .ite (fun _ => .pure (by grind)) fun _ => ?_
    exact reads_assignFrom hlo (Nat.le_refl _) fun e h => h.2

instance : Reading text (genericArrow r c) (OnSome (Fits text)) where
  reads _ _ := by
    refine .start fun lo hlo => .step fun types => .step fun e => ?_
    split
    · refine .answer (.node hlo rfl fun e h => ?_)
      have hparts := h.2.holds.parts (by simp)
      grind
    · exact .pure (by simp)

instance : Reading text (assignment r c) (Fits text) where
  reads _ _ := by
    refine .ask fun u => .ask fun _ => .step fun markup => ?_
    split
    · exact .pure (by grind)
    · refine .step fun generic => ?_
      split
      · exact .pure (by grind)
      · exact .same

instance : Reading text (expression r c) (Fits text) where
  reads _ _ := by
    refine .start fun lo hlo => .step fun first => .ask fun _ => .ite (fun _ => ?_) fun _ => ?_
    · refine .step fun rest => .node hlo rfl ?_
      grind
    · exact .pure (by grind)

/-! ### Prefix and postfix operators -/

instance : Quiet prefixOperator? := by
  refine @Quiet.bind _ _ _ _ _ fun t => ?_
  split <;> infer_instance

instance : Reading text (assertion r c) (Fits text) where
  reads _ _ := by
    refine .start fun lo hlo => .step fun _ => .step fun _ => .step fun type => .step fun _ => ?_
    refine .step fun e => .node hlo rfl ?_
    grind

instance : Reading text (awaitExpression r c) (Fits text) where
  reads _ _ := by
    refine .start fun lo hlo => .step fun _ => .ask fun _ => .ite (fun _ => .fail) fun _ => ?_
    refine .ask fun _ => .ite (fun _ => .step fun _ => .node hlo rfl (by grind)) fun _ => ?_
    refine .step fun _ => .step fun e => .node hlo rfl ?_
    grind

instance (arrow : Bool) : Reading text (unary r c arrow) (Fits text) where
  reads _ _ := by
    refine .start fun lo hlo => .ask fun _ => .ite (fun _ => .same) fun _ => .ask fun _ => ?_
    refine .ite (fun _ => ?_) fun _ => ?_
    · refine .ask fun _ => .step fun _ => .step fun e => .step fun _ => .node hlo rfl ?_
      grind
    · refine .ask fun op => ?_
      split
      · refine .step fun _ => .step fun e => ?_
        split
        · refine .node hlo rfl ?_
          grind
        · refine .step fun _ => .ask fun hi => .node hlo rfl fun e h => ⟨by grind, ?_⟩
          simpa using holds_empty rfl
      · refine .ask fun _ => .ite (fun _ => .same) fun _ => .step fun e => .ask fun _ => .ask fun _ => ?_
        refine .ite (fun _ => .pure (by grind)) fun _ => ?_
        refine .step fun _ => .ask fun _ => .step fun _ => .node hlo rfl ?_
        grind

/-! ### Members and calls -/

instance : Reading text (spreadable r c) (Fits text) where
  reads _ _ := by
    refine .start fun lo hlo => .step fun _ => .ite (fun _ => .step fun e => ?_) fun _ => .same
    refine .node hlo rfl ?_
    grind

instance : Reading text (callArguments r c) fun L t e => Holds text L t e ∧ L ≤ e.stop :=
  ⟨fun _ _ => .step fun _ => .step fun _ => .step fun _ => .pure (by grind)⟩

instance : Reading text memberKey (Fits text) :=
  ⟨fun _ _ => .ask fun _ => .ite (fun _ => .same) fun _ => .last fun _ _ _ h => h.toFits⟩

section

variable {link : Link} {left : Tree} {types : List Tree}

theorem reads_taggedTemplate (hlo : Boundary text lo) (hle : lo ≤ L)
    (hleft : ∀ e, K e → Fits text lo left e) (htypes : ∀ e, K e → OnAll (Fits text) lo types e) :
  Reads text K L (taggedTemplate r c lo left types) (Fits text lo)
  := by
  refine .step fun _ => .step fun parts => .node hlo rfl ?_
  grind

theorem reads_indexTail (hlo : Boundary text lo) (hle : lo ≤ L)
    (hleft : ∀ e, K e → Fits text lo left e) :
  Reads text K L (indexTail r c lo link left) (Fits text lo)
  := by
  refine .step fun _ => .step fun key => .step fun _ => .node hlo rfl ?_
  grind

theorem reads_callTail (hlo : Boundary text lo) (hle : lo ≤ L)
    (hleft : ∀ e, K e → Fits text lo left e) (htypes : ∀ e, K e → OnAll (Fits text) lo types e) :
  Reads text K L (callTail r c lo link left types) (Fits text lo)
  := by
  refine .step fun arguments => .node hlo rfl ?_
  grind

instance : Quiet (followsTypeArguments c) := by unfold followsTypeArguments; infer_instance
instance : Quiet startsTypeParameters := by unfold startsTypeParameters; infer_instance

theorem reads_asyncGenericArrow (hlo : Boundary text lo) (hle : lo ≤ L) :
  Reads text K L (asyncGenericArrow r c lo) (OnSome (Fits text) lo)
  := by
  refine .step fun types => .step fun _ => .step fun items => .step fun _ => .ask fun _ => ?_
  refine .step fun result => .step fun _ => .ask fun _ => .step fun body => ?_
  refine .answer (.node hlo rfl ?_)
  grind

theorem reads_typedSubscript {calls : Bool} (hlo : Boundary text lo) (hle : lo ≤ L)
    (hleft : ∀ e, K e → Fits text lo left e) :
  Reads text K L (typedSubscript r c calls lo left) (OnSome (Fits text) lo)
  := by
  refine .step fun types => .ask fun _ => .ite (fun _ => .ite (fun _ => ?_) fun _ => ?_) fun _ => ?_
  · refine .answer (reads_callTail hlo hle ?_ ?_)
    all_goals grind
  · exact .pure (by simp)
  · refine .ask fun _ => .ite (fun _ => ?_) fun _ => .ask fun _ => .ite (fun _ => ?_) fun _ => ?_
    · refine .answer (reads_taggedTemplate hlo hle ?_ ?_)
      all_goals grind
    · refine .answer (.node hlo rfl ?_)
      grind
    · exact .pure (by simp)

theorem reads_optionalSubscript {indexes : Bool} (hlo : Boundary text lo) (hle : lo ≤ L)
    (hleft : ∀ e, K e → Fits text lo left e) :
  Reads text K L (optionalSubscript r c indexes lo left) (Fits text lo)
  := by
  refine .ask fun _ => .ite (fun _ => reads_indexTail hlo hle hleft) fun _ => .ask fun _ => ?_
  refine .ite (fun _ => reads_callTail hlo hle hleft (by simp)) fun _ => .ask fun _ => ?_
  refine .ite (fun _ => .step fun types => reads_callTail hlo hle ?_ ?_) fun _ => ?_
  · grind
  · grind
  · refine .step fun key => .node hlo rfl ?_
    grind

theorem reads_subscriptStep {calls indexes : Bool} (hlo : Boundary text lo) (hle : lo ≤ L)
    (hleft : ∀ e, K e → Fits text lo left e) :
  Reads text K L (subscriptStep r c calls indexes lo left) (OnSome (Fits text) lo)
  := by
  refine .ask fun t => .bind (.attemptIf fun _ => reads_typedSubscript hlo hle hleft) fun typed => ?_
  split
  · exact .pure (by grind)
  · split
    · refine .ite (fun _ => .step fun _ => ?_) fun _ => .pure (by simp)
      refine .answer (.node hlo rfl ?_)
      grind
    · refine .step fun _ => .answer (reads_optionalSubscript hlo hle ?_)
      grind
    · refine .ite (fun _ => .answer (reads_indexTail hlo hle ?_)) fun _ => .pure (by simp)
      grind
    · refine .ite (fun _ => .answer (reads_callTail hlo hle ?_ (by simp))) fun _ => .pure (by simp)
      grind
    · refine .step fun _ => .step fun key => .answer (.node hlo rfl ?_)
      grind
    · refine .answer (reads_taggedTemplate hlo hle ?_ (by simp))
      grind
    · exact .pure (by simp)

theorem reads_subscripts {calls indexes : Bool} (hlo : Boundary text lo) (hle : lo ≤ L)
    (hleft : ∀ e, K e → Fits text lo left e) :
  Reads text K L (subscripts r c calls indexes lo left) (Fits text lo)
  := .iterate (fun _ => reads_subscriptStep hlo hle fun _ h => h.2) _ hleft

end

/-! ### Arrow functions and parentheses -/

/-- What is known of an item between parentheses that was read from `lo` on. -/
def ParenItem.Fits (text : List Char) (lo : Nat) (item : ParenItem) (e : Extent) : Prop :=
  Source.Fits text lo item.tree e

instance : Lowers (ParenItem.Fits text) := ⟨Fits.lower⟩

theorem reads_typedItem {spread : Bool} {left : Tree} (hlo : Boundary text lo) (hle : lo ≤ L)
    (hleft : ∀ e, K e → Fits text lo left e) :
  Reads text K L (typedItem r c lo spread left) (ParenItem.Fits text lo)
  := by
  refine .still (by simp) fun pattern hp => .step fun _ => .step fun type => ?_
  have hpattern (e : Extent) (h : K e) := hp.fits (hleft e h)
  refine .ite (fun _ => .bind (.node hlo rfl ?_) fun _ => .pure fun _ h => h.2) fun _ => ?_
  · grind
  · refine .step fun defaults => ?_
    split
    all_goals
      refine .bind (.node hlo rfl ?_) fun _ => .pure fun _ h => h.2
      grind

instance : Reading text (namedItem r c) (Fits text) where
  reads _ _ := by
    refine .start fun lo hlo => .step fun e => .ite (fun _ => .pure (by grind)) fun _ => ?_
    exact reads_assignFrom hlo (Nat.le_refl _) fun e h => h.2

instance : Reading text (typedParenItem r c) (ParenItem.Fits text) where
  reads _ _ := by
    refine .step fun _ => .start fun lo hlo => .ask fun t => .ask fun u => .step fun spread => ?_
    refine .step fun e => .ask fun _ => .ask fun _ => .ite (fun _ => .step fun _ => ?_) fun _ => ?_
    · refine .ite (fun _ => reads_typedItem hlo (Nat.le_refl _) ?_) fun _ => .fail
      grind
    · refine .bind (P := Fits text lo) (.choose (fun _ => .pure ?_) fun _ => ?_) fun e => ?_
      · grind
      · refine reads_conditionalFrom hlo (Nat.le_refl _) ?_
        grind
      · refine .ask fun _ => .ite (fun _ => reads_typedItem hlo (Nat.le_refl _) ?_) fun _ => ?_
        · grind
        · refine .ite (fun _ => .bind (.node hlo rfl ?_) fun _ => .pure fun _ h => h.2) fun _ => ?_
          · grind
          · exact .pure fun _ h => h.2

instance : Reading text (parenItem r c) (ParenItem.Fits text) :=
  ⟨fun _ _ => .ite (fun _ => .same) fun _ => .step fun _ => .pure fun _ h => h.2⟩

instance (isAsync : Bool) : Reading text (arrowBody r c isAsync) (Fits text) :=
  ⟨fun _ _ => .ask fun _ => .ite (fun _ => .same) fun _ => .same⟩

instance (item : ParenItem) :
    Still (if item.isParameter then pure item.tree else asParameter item.tree)
      (Reshapes item.tree) :=
  .ite (.pure (.refl _)) inferInstance

section

variable {isAsync : Bool} {items : List ParenItem} {result : List Tree}

theorem reads_arrowTail (hlo : Boundary text lo) (hle : lo ≤ L)
    (hitems : ∀ e, K e → OnAll (ParenItem.Fits text) lo items e)
    (hresult : ∀ e, K e → OnAll (Fits text) lo result e) :
  Reads text K L (arrowTail r c lo isAsync items result) (Fits text lo)
  := by
  refine .step fun _ => .still (by simp) fun parameters hparameters => .step fun body => ?_
  have hholds (e : Extent) (h : K e) : OnAll (Holds text) lo parameters e := by
    intro p hp
    obtain ⟨t, ht, hreshapes⟩ := Reshapes.exists_mem (List.forall₂_map_left_iff.mpr hparameters) hp
    obtain ⟨item, hitem, rfl⟩ := List.mem_map.mp ht
    exact hreshapes.holds (hitems e h item hitem).holds
  refine .node hlo rfl ?_
  grind

theorem reads_branchArrow (hlo : Boundary text lo) (hle : lo ≤ L)
    (hitems : ∀ e, K e → OnAll (ParenItem.Fits text) lo items e) :
  Reads text K L (branchArrow r c lo isAsync items) (OnSome (Fits text) lo)
  := by
  refine .step fun result => .step fun _ => .bind (reads_arrowTail hlo hle ?_ ?_) fun e => ?_
  · grind
  · grind
  · refine .ask fun _ => .ite (fun _ => .pure (by simp)) fun _ => .pure ?_
    grind

instance : Reading text (arrowResult r c) (OnSome (Fits text)) :=
  ⟨fun _ _ => .step fun _ => .ask fun _ => .ite (fun _ => .pure (by grind)) fun _ =>
    .pure (by simp)⟩

instance : Quiet atMarkOperator? := by
  refine @Quiet.bind _ _ _ _ _ fun t => ?_
  split <;> infer_instance

theorem reads_arrowFrom {arrow : Bool} (hlo : Boundary text lo) (hle : lo ≤ L)
    (hitems : ∀ e, K e → OnAll (ParenItem.Fits text) lo items e)
    (hresult : ∀ e, K e → OnAll (Fits text) lo result e) :
  Reads text K L (arrowFrom r c arrow lo isAsync items result) (Fits text lo)
  := by
  refine .ask fun _ => .step fun _ => .step fun _ => .bind (reads_arrowTail hlo hle ?_ ?_) fun e => ?_
  · grind
  · grind
  · refine .ask fun _ => .ite (fun _ => .step fun _ => reads_binaryFrom ?_) fun _ => .pure ?_
    all_goals grind

/-- The items between parentheses follow each other. -/
theorem reads_parenItems {close : String} (fuel : Nat) :
  Reads text K L (commaList close (parenItem r c) fuel) fun items e =>
    OnAll (ParenItem.Fits text) L items e ∧ Tree.Ordered (items.map (·.tree))
  := by
  induction fuel generalizing K L with
  | zero => exact .fail
  | succ fuel ih =>
      refine .ask fun _ => .ite (fun _ => .pure (by simp [Tree.Ordered])) fun _ => ?_
      refine .step fun item => .ask fun _ => .ite (fun _ => .pure fun e h => ?_) fun _ => ?_
      · simpa [Tree.Ordered] using h.2
      · refine .step fun _ => .raise (fun _ => rfl) fun N hL hN => ?_
        have hN := hN item.tree.span.hi fun e h => h.1.2.le_stop
        refine .bind ih fun rest => .pure fun e h => ⟨?_, ?_⟩
        · exact onAll_cons.mpr ⟨h.1.1.1.2, h.2.1.imp fun _ ht => ht.lower hL⟩
        · refine List.pairwise_cons.mpr ⟨fun t ht => ?_, h.2.2⟩
          obtain ⟨item', hitem', rfl⟩ := List.mem_map.mp ht
          exact Nat.le_trans hN (h.2.1 item' hitem').le

theorem reads_parenthesized {trees : List Tree} (hlo : Boundary text lo)
    (h : ∀ e, K e → lo ≤ e.stop ∧ OnAll (Fits text) lo trees e) (htrees : Tree.Ordered trees) :
  Reads text K L (parenthesized lo trees) (Fits text lo)
  := by
  refine .step fun _ => ?_
  split
  · exact .fail
  · refine .node hlo rfl ?_
    grind
  · next first tail _ =>
    have hlast := List.getLast?_cons (a := first) (l := tail)
    refine .node hlo rfl fun e he => ⟨(h e he.1).1, ?_⟩
    rw [hlast]
    simpa using holds_sequence (h e he.1).2 htrees rfl hlast rfl

theorem reads_parenOrArrow {arrow : Bool} {word : Option Tree} (hlo : Boundary text lo)
    (hle : lo ≤ L) (hword : ∀ e, K e → OnSome (Fits text) lo word e) :
  Reads text K L (parenOrArrow r c arrow lo word) (Fits text lo)
  := by
  refine .step fun _ => .bind (P := fun items e => OnAll (ParenItem.Fits text) lo items e ∧
    Tree.Ordered (items.map (·.tree))) ?_ fun items => .step fun _ => .ask fun _ => ?_
  · exact (reads_parenItems r.fuel).post fun _ _ _ h => ⟨h.1.imp fun _ ht => ht.lower hle, h.2⟩
  refine .bind (.attemptIf fun _ => reads_branchArrow hlo hle ?_) fun branch => ?_
  · grind
  · split
    · exact .pure (by grind)
    · refine .step fun result => .ask fun _ => .ite (fun _ => reads_arrowFrom hlo hle ?_ ?_) fun _ => ?_
      · grind
      · grind
      · refine .given (fun e h => h.1.1.1.2.2) fun hordered => .step fun _ => ?_
        have htrees (e : Extent) (h : OnAll (ParenItem.Fits text) lo items e) :
            OnAll (Fits text) lo (items.map (·.tree)) e :=
          onAll_map.mpr h
        split
        · refine .node hlo rfl ?_
          grind
        · refine reads_parenthesized hlo ?_ hordered
          grind

end

/-! ### Literals -/

instance : Reading text (arrayElement r c) (Sits text) where
  reads _ _ := by
    refine .start fun lo hlo => .ask fun _ => .ite (fun _ => .pure fun _ _ => sits_hole hlo) fun _ => ?_
    exact .last fun _ _ _ => Fits.sits

instance : Reading text (array r c) (Fits text) where
  reads _ _ := by
    refine .start fun lo hlo => .step fun _ => .step fun items => .step fun _ => .node hlo rfl ?_
    grind

section

variable {key : Tree}

theorem reads_objectMethod {isAsync isGenerator : Bool} (hlo : Boundary text lo) (hle : lo ≤ L)
    (hkey : ∀ e, K e → Fits text lo key e) :
  Reads text K L (objectMethod r c lo key isAsync isGenerator) (Fits text lo)
  := by
  refine .step fun tail => .node hlo rfl ?_
  grind

theorem reads_objectAccessor {isGetter : Bool} (hlo : Boundary text lo) (hle : lo ≤ L) :
  Reads text K L (objectAccessor r c lo isGetter) (Fits text lo)
  := by
  refine .step fun key => .step fun tail => .step fun _ => .node hlo rfl ?_
  grind

theorem reads_objectWordTail {w : String} (hlo : Boundary text lo) (hle : lo ≤ L)
    (hkey : ∀ e, K e → Fits text lo key e) :
  Reads text K L (objectWordTail r c lo key w) (Fits text lo)
  := by
  refine .step fun _ => .step fun _ => .ask fun _ => .ite (fun _ => ?_) fun _ => ?_
  · refine .step fun _ => .step fun defaults => ?_
    split
    all_goals
      refine .node hlo rfl ?_
      grind
  · refine .ite (fun _ => reads_objectAccessor hlo hle) fun _ => .ite (fun _ => ?_) fun _ => .fail
    refine .step fun _ => .step fun key => reads_objectMethod hlo hle ?_
    grind

instance : Quiet (followsPropertyName key) := by
  refine @Quiet.bind _ _ _ _ _ fun t => ?_
  split <;> infer_instance

theorem reads_propertyFrom (hlo : Boundary text lo) (hle : lo ≤ L)
    (hkey : ∀ e, K e → Fits text lo key e) :
  Reads text K L (propertyFrom r c lo key) (Fits text lo)
  := by
  refine .ask fun _ => .ite (fun _ => .step fun _ => .node hlo rfl ?_) fun _ => .step fun _ => ?_
  · grind
  refine .ite (fun _ => .step fun value => .node hlo rfl ?_) fun _ => .ask fun _ => ?_
  · grind
  refine .ite (fun _ => reads_objectMethod hlo hle ?_) fun _ => ?_
  · grind
  split
  · refine reads_objectWordTail hlo hle ?_
    grind
  · exact .fail

end

instance : Reading text (objectProperty r c) (Fits text) where
  reads _ _ := by
    refine .start fun lo hlo => .ask fun _ => .ite (fun _ => .same) fun _ => .step fun _ => ?_
    refine .ite (fun _ => .step fun key => reads_objectMethod hlo (Nat.le_refl _) ?_) fun _ => ?_
    · grind
    · refine .step fun _ => .step fun key => reads_propertyFrom hlo (Nat.le_refl _) ?_
      grind

instance : Reading text (object r c) (Fits text) where
  reads _ _ := by
    refine .start fun lo hlo => .step fun _ => .step fun items => .step fun _ => .node hlo rfl ?_
    grind

/-- What stands behind the slash that a token starts with. -/
theorem stands_tail_of_slash {t : Token} (ht : t.Located text)
    (hslash : t.kind = .punct "/" ∨ t.kind = .punct "/=") :
  Stands text t.front.tail (t.span.lo + 1)
  := by
  have hfront : ['/'] <+: t.front := by
    obtain hkind | hkind := hslash
    · exact (ht.punct _ hkind (by decide)).1
    · exact (List.prefix_append ['/'] ['=']).trans (ht.punct _ hkind (by decide)).1
  obtain ⟨tail, htail⟩ := hfront
  have hstands := ht.front
  rw [← htail] at hstands ⊢
  exact hstands.cons

theorem reads_regex (hslash : ∀ s, H s → s.tok.kind = .punct "/" ∨ s.tok.kind = .punct "/=") :
  ReadsWhen text H State.extent State.extent K L regex (Fits text L)
  := by
  refine .peek fun t => .facing (φ := t.Located text ∧ L ≤ t.span.lo ∧
    Stands text t.front.tail (t.span.lo + 1)) ?_ ?_
  · rintro s ⟨hs, rfl⟩ hsound hL
    exact ⟨hsound.tok, hL, stands_tail_of_slash hsound.tok (hslash s hs)⟩
  rintro ⟨ht, hL, htail⟩
  extract_lets cs lo
  split
  · have hrest := htail.trans (stands_openRegex t.front.tail)
    refine .bind (.replace ?_) fun _ => .fail
    rintro s ⟨-, rfl⟩ -
    refine ⟨⟨ht.front, hrest, ?_, by simp, by simp, ht.comments⟩, rfl, rfl⟩
    simp only
    omega
  · next hend =>
    have hrest := htail.trans (stands_regexEnd hend)
    refine .bind (.extend (.take ?_)) fun _ => .lower (.node ht.front.boundary rfl ?_) hL
    · rintro s ⟨-, rfl⟩ -
      refine ⟨hrest, rfl, ?_, rfl⟩
      simp only
      omega
    · grind

instance : Reading text (template r c) (Fits text) where
  reads _ _ := by
    refine .start fun lo hlo => .step fun parts => .node hlo rfl ?_
    grind

/-- An arrow function whose only parameter is a name. -/
theorem reads_arrowTail_name {isAsync : Bool} {n : Tree} (hlo : Boundary text lo) (hle : lo ≤ L)
    (hn : ∀ e, K e → Fits text lo n e) :
  Reads text K L (arrowTail r c lo isAsync [⟨n, true⟩] []) (Fits text lo)
  := by
  refine reads_arrowTail hlo hle (fun e h => ?_) (by simp)
  exact onAll_cons.mpr ⟨hn e h, by simp⟩

instance (arrow : Bool) : Reading text (nameOrArrow r c arrow) (Fits text) where
  reads _ _ := by
    refine .start fun lo hlo => .step fun n => .ask fun _ => .step fun _ => .ite (fun _ => ?_) fun _ => ?_
    · refine reads_arrowTail_name hlo (Nat.le_refl _) ?_
      grind
    · exact .pure (by grind)

instance (arrow : Bool) : Reading text (asyncExpression r c arrow) (Fits text) where
  reads _ _ := by
    refine .start fun lo hlo => .ask fun u => .ask fun v => ?_
    refine .bind (P := OnSome (Fits text) lo) (.attemptIf fun _ => ?_) fun generic => ?_
    · refine .step fun _ => .ask fun _ => .ite (fun _ => ?_) fun _ => .pure (by simp)
      exact reads_asyncGenericArrow hlo (Nat.le_refl _)
    split
    · exact .pure (by grind)
    · refine .ite (fun _ => .step fun _ => ?_) fun _ => .ite (fun _ => .step fun word => ?_) fun _ => ?_
      · exact reads_functionExpression hlo (Nat.le_refl _)
      · refine reads_parenOrArrow hlo (Nat.le_refl _) ?_
        grind
      · refine .ite (fun _ => .step fun _ => .step fun n => .step fun _ => ?_) fun _ => .same
        refine reads_arrowTail_name hlo (Nat.le_refl _) ?_
        grind

instance (w : String) (arrow : Bool) : Reading text (wordExpression r c w arrow) (Fits text) where
  reads _ _ := by
    refine .start fun lo hlo => ?_
    refine .ite (fun _ => .last fun _ _ _ h => h.toFits) fun _ => ?_
    refine .ite (fun _ => .last fun _ _ _ h => h.toFits) fun _ => ?_
    refine .ite (fun _ => .last fun _ _ _ h => h.toFits) fun _ => ?_
    refine .ite (fun _ => .last fun _ _ _ h => h.toFits) fun _ => ?_
    refine .ite (fun _ => reads_functionExpression hlo (Nat.le_refl _)) fun _ => ?_
    refine .ite (fun _ => reads_classTail hlo (Nat.le_refl _) rfl ?_) fun _ => ?_
    · exact fun _ _ => parts_of_onAll (by simp)
    · exact .ite (fun _ => .same) fun _ => .same

instance : Reading text looseName (Fits text) where
  reads _ _ := by
    refine .start fun lo hlo => .step fun _ => .ask fun t => ?_
    split
    · refine .step fun _ => .node hlo rfl ?_
      grind
    · exact .fail

instance (arrow : Bool) : Reading text (primary r c arrow) (Fits text) where
  reads _ _ := by
    refine .start fun lo hlo => .peek fun t => ?_
    split
    · exact .last fun _ _ _ h => h.toFits
    · exact .last fun _ _ _ h => h.toFits
    · exact .last fun _ _ _ h => h.toFits
    · exact .same
    · exact .ite (fun _ => .same) fun _ => .same
    · exact .of_reads (reads_parenOrArrow hlo (Nat.le_refl _) (by simp))
    · exact .same
    · exact .same
    · next hkind =>
      refine reads_regex ?_
      rintro s ⟨-, rfl⟩
      exact .inl hkind
    · next hkind =>
      refine reads_regex ?_
      rintro s ⟨-, rfl⟩
      exact .inr hkind
    · exact .same
    · refine .step fun decorators => reads_classTail hlo (Nat.le_refl _) rfl fun e h => ?_
      exact parts_of_onAll (by grind)
    · exact .fail

/-! ### New objects and modules -/

instance : Reading text (importArguments r c) fun L t e => Holds text L t e ∧ L ≤ e.stop :=
  ⟨fun _ _ => .step fun _ => .step fun _ => .ask fun _ => .step fun _ => .step fun _ =>
    .pure (by grind)⟩

instance : Reading text importPhase fun _ _ _ => True :=
  ⟨fun _ _ => .ask fun _ => .ask fun _ => .ite (fun _ => .step fun _ => .pure (by simp)) fun _ => .fail⟩

instance (calls : Bool) : Reading text (importExpression r c calls) (Fits text) where
  reads _ _ := by
    refine .start fun lo hlo => .step fun _ => .step fun _ => .step fun _ => .ite (fun _ => ?_) fun _ => ?_
    · refine .step fun _ => .bind (.node hlo rfl ?_) fun e => reads_subscripts hlo (Nat.le_refl _) ?_
      · grind
      · exact fun _ h => h.2
    · refine .step fun _ => .step fun _ => .step fun arguments => .bind (.node hlo rfl ?_) fun e => ?_
      · grind
      · exact reads_subscripts hlo (Nat.le_refl _) fun _ h => h.2

instance : Reading text (callTypes? r c) (OnSome (Fits text)) where
  reads _ _ := by
    refine .ask fun _ => .attemptIf fun _ => .step fun types => .ask fun _ => ?_
    refine .ite (fun _ => .pure ?_) fun _ => .pure (by simp)
    grind

instance : Reading text (newExpression r c) (Fits text) where
  reads _ _ := by
    refine .start fun lo hlo => .step fun _ => .step fun _ => .ite (fun _ => ?_) fun _ => ?_
    · refine .step fun _ => .step fun _ => .bind (.node hlo rfl ?_) fun e => ?_
      · grind
      · exact reads_subscripts hlo (Nat.le_refl _) fun _ h => h.2
    · refine .step fun callee => .step fun _ => .step fun types => .ask fun _ => ?_
      refine .ite (fun _ => .step fun arguments => .bind (.node hlo rfl ?_) fun e => ?_) fun _ => ?_
      · grind
      · exact reads_subscripts hlo (Nat.le_refl _) fun _ h => h.2
      · refine .node hlo rfl ?_
        grind

instance (arrow : Bool) : Reading text (memberExpression r c arrow) (Fits text) where
  reads _ _ := by
    refine .start fun lo hlo => .ask fun _ => .ite (fun _ => .same) fun _ => .step fun _ => ?_
    refine .ite (fun _ => .step fun _ => .bind (.node hlo rfl ?_) fun e => ?_) fun _ => ?_
    · grind
    · refine .ask fun _ => .ite (fun _ => ?_) fun _ => .fail
      exact reads_subscripts hlo (Nat.le_refl _) fun _ h => h.2
    · refine .ask fun _ => .ite (fun _ => .same) fun _ => .step fun e => ?_
      refine .ite (fun _ => .pure (by grind)) fun _ => ?_
      exact reads_subscripts hlo (Nat.le_refl _) fun _ h => h.2

instance : Reading text (newCallee r c) (Fits text) := by unfold newCallee; infer_instance

instance (arrow : Bool) : Reading text (callExpression r c arrow) (Fits text) where
  reads _ _ := by
    refine .start fun lo hlo => .step fun e => .ite (fun _ => .pure (by grind)) fun _ => ?_
    refine .step fun types => .ask fun _ => .ite (fun _ => ?_) fun _ => .pure (by grind)
    refine .bind (reads_callTail hlo (Nat.le_refl _) ?_ ?_) fun e => ?_
    · grind
    · grind
    · exact reads_subscripts hlo (Nat.le_refl _) fun _ h => h.2

instance (arrow : Bool) : Reading text (leftHand r c arrow) (Fits text) where
  reads _ _ := by
    refine .start fun lo hlo => .ask fun _ => .ite (fun _ => .same) fun _ => .ask fun _ => ?_
    refine .ite (fun _ => .same) fun _ => .step fun _ => .ite (fun _ => .step fun _ => ?_) fun _ => .same
    refine .bind (.node hlo rfl ?_) fun e => .ask fun _ => .ite (fun _ => ?_) fun _ => .fail
    · grind
    · exact reads_subscripts hlo (Nat.le_refl _) fun _ h => h.2

instance : Reading text (heritage r c) (Fits text) where
  reads _ _ := by
    refine .start fun lo hlo => .step fun n => reads_subscripts hlo (Nat.le_refl _) ?_
    grind

/-! ### Decorators -/

theorem reads_decoratorCall {left : Tree} (hlo : Boundary text lo) (hle : lo ≤ L)
    (hleft : ∀ e, K e → Fits text lo left e) :
  Reads text K L (decoratorCall r c lo left) (Fits text lo)
  := by
  refine .ask fun _ => .step fun types => .ask fun _ => .ite (fun _ => ?_) fun _ => .pure (by grind)
  refine reads_callTail hlo hle ?_ ?_
  all_goals grind

instance : Reading text (decorator r c) (Decorates text) where
  reads _ _ := by
    refine .start fun lo hlo => .step fun _ => .here fun start hstart hle => .step fun _ => ?_
    refine .bind (g := State.extent) (P := Fits text start) (.choose ?_ ?_) fun e => ?_
    · refine fun _ => .step fun e => .step fun _ => .node hstart rfl ?_
      grind
    · refine fun _ => .step fun n => reads_subscripts hstart (Nat.le_refl _) ?_
      grind
    · refine .bind (reads_decoratorCall hstart (Nat.le_refl _) fun _ h => h.2) fun e => ?_
      refine (ReadsWhen.nodeOfKind hlo rfl ?_).post fun t _ _ h => ⟨h.1, by simp [Tree.isDecorator, h.2]⟩
      grind

instance : Reading text (decorators r c) (OnAll (Decorates text)) :=
  ⟨fun _ _ => .ite (fun _ => .same) fun _ => .pure (by simp)⟩

end Prune.Source.Grammar
