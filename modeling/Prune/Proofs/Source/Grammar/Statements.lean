import Prune.Proofs.Source.Grammar.Expressions
import Prune.Source.Grammar.Statements

/-!
# Layout of statements

Statements and the declarations among them are laid out as they were read.  The decorators that were
read before a declaration may stand in front of it, but only a class keeps them.
-/

namespace Prune.Source.Grammar

open Prune.Source.Parser Text

variable {text : List Char} {r : Rules} {c : Context} [Rules.Reads text r]
  {H : State → Prop} {K : Extent → Prop} {L M lo : Nat}

instance : Reading text (lone r c) fun L t e => Holds text L t e ∧ L ≤ e.stop :=
  ⟨fun _ _ => .step fun _ => .pure fun _ h => ⟨h.2.lone, h.2.le_extent⟩⟩

instance : Reading text (body r c) (Fits text) where
  reads _ _ := by
    refine .start fun lo hlo => .step fun _ => .step fun items => .step fun _ => .node hlo rfl ?_
    grind

instance : Reading text (condition r c) (Fits text) :=
  ⟨fun _ _ => .step fun _ => .step fun _ => .step fun _ => .pure (by grind)⟩

/-! ### Variables -/

instance (word : String) (inFor : Bool) : Reading text (declarator r c word inFor) (Fits text) where
  reads _ _ := by
    refine .start fun lo hlo => .ask fun _ => .step fun _ => .step fun p => .step fun _ => ?_
    refine .step fun type => .ask fun _ => .ite (fun _ => .node hlo rfl (by grind)) fun _ => ?_
    refine .step fun _ => .ite (fun _ => .step fun e => .step fun _ => .node hlo rfl ?_) fun _ => ?_
    · grind
    · exact .ite (fun _ => .node hlo rfl (by grind)) fun _ => .fail

theorem reads_declarators {word : String} {inFor : Bool} (fuel : Nat) :
  Reads text K L (declarators r c word inFor fuel) (OnAll (Fits text) L)
  := by
  induction fuel generalizing K with
  | zero => exact .fail
  | succ fuel ih =>
      refine .ask fun _ => .ite (fun _ => .step fun _ => .pure (by simp)) fun _ => ?_
      refine .step fun first => .step fun _ => .ite (fun _ => .bind ih fun rest => .pure ?_) fun _ => ?_
      · grind
      · exact .pure (by grind)

instance (word : String) (inFor : Bool) (fuel : Nat) :
    Reading text (declarators r c word inFor fuel) (OnAll (Fits text)) :=
  ⟨fun _ _ => reads_declarators fuel⟩

instance {r : Rules} : Quiet (lacksVariable r c) := by unfold lacksVariable; infer_instance

theorem reads_skipStatement (fuel : Nat) :
  Reads text K L (skipStatement fuel) fun _ _ => True
  := by
  induction fuel generalizing K with
  | zero => exact .fail
  | succ fuel ih =>
      refine .step fun _ => .ask fun _ => .ite (fun _ => .pure fun _ _ => trivial) fun _ => ?_
      exact .step fun _ => ih

instance (fuel : Nat) : Reading text (skipStatement fuel) fun _ _ _ => True :=
  ⟨fun _ _ => reads_skipStatement fuel⟩

theorem reads_variableList {word : String} (hlo : Boundary text lo) (hle : lo ≤ L) :
  Reads text K L (variableList r c lo word) (Fits text lo)
  := by
  refine .step fun _ => .step fun items => .step fun _ => .step fun _ => ?_
  refine .node hlo rfl ?_
  grind

instance : Reading text (loopVariables r c) (Fits text) where
  reads _ _ := by
    refine .start fun lo hlo => .ask fun _ => .step fun _ => .ask fun _ => .ite (fun _ => ?_) fun _ => ?_
    · refine .step fun _ => .node hlo rfl fun e h => ⟨by grind, ?_⟩
      simpa using holds_series .declarators (onAll_nil.mpr trivial) (Nat.le_refl _)
    · refine .step fun items => .node hlo rfl ?_
      grind

/-! ### Declarations of types -/

theorem reads_skipToBody (fuel : Nat) :
  Reads text K L (skipToBody fuel) fun _ _ => True
  := by
  induction fuel generalizing K with
  | zero => exact .fail
  | succ fuel ih =>
      refine .ask fun _ => .ask fun _ => .ite (fun _ => .pure fun _ _ => trivial) fun _ => ?_
      refine .bind (P := fun _ _ => True) (fun s _ hsound hL hK => ?_) fun _ => ih
      obtain ⟨hsound', hL', hle, -⟩ := hsound.after hsound.offers_tok hL
      exact ⟨hsound', hL', Extent.le_trans hle (State.past_le_extent _), fun _ _ => trivial⟩

instance (fuel : Nat) : Reading text (skipToBody fuel) fun _ _ _ => True :=
  ⟨fun _ _ => reads_skipToBody fuel⟩

theorem reads_interface (hlo : Boundary text lo) (hle : lo ≤ L) :
  Reads text K L (interface r c lo) (Fits text lo)
  := by
  refine .step fun n => .step fun types => .step fun _ => .step fun heritage => .ask fun _ => ?_
  refine .step fun _ => .here fun start hstart hle' => .step fun members => ?_
  refine .bind (.node hstart rfl (by grind)) fun record => .node hlo rfl ?_
  grind

theorem reads_typeAlias (hlo : Boundary text lo) (hle : lo ≤ L) :
  Reads text K L (typeAlias r c lo) (Fits text lo)
  := by
  refine .step fun n => .step fun types => .step fun _ => .step fun type => .step fun _ => ?_
  refine .node hlo rfl ?_
  grind

instance : Reading text (enumeratorName r c) (Fits text) where
  reads _ _ := by
    refine .start fun lo hlo => .ask fun t => ?_
    split
    · exact .last fun _ _ _ h => h.toFits
    · exact .step fun _ => .last fun _ _ _ h => h.toFits
    · refine .step fun _ => .step fun _ => .step fun e => .step fun _ => .node hlo rfl ?_
      grind
    · exact .last fun _ _ _ h => h.toFits

instance : Reading text (enumerator r c) (Fits text) where
  reads _ _ := by
    refine .start fun lo hlo => .step fun key => .step fun _ => .ite (fun _ => ?_) fun _ => ?_
    · refine .step fun value => .node hlo rfl ?_
      grind
    · refine .bind (.node hlo rfl (by grind)) fun member => .ask fun _ => .ite (fun _ => ?_) fun _ => ?_
      · exact .pure fun _ h => h.2
      · refine .step fun _ => .step fun _ => .peek fun t => .bind (.replace ?_) fun _ => .pure ?_
        · rintro s ⟨-, rfl⟩ hsound
          obtain ⟨hfront, hrest, hle, -, -, hcomments⟩ := hsound.tok
          exact ⟨⟨hfront, hrest, hle, by simp, by simp, hcomments⟩, rfl, rfl⟩
        · grind

theorem reads_enumerators (fuel : Nat) :
  Reads text K L (enumerators r c fuel) (OnAll (Fits text) L)
  := by
  induction fuel generalizing K with
  | zero => exact .fail
  | succ fuel ih =>
      refine .ask fun _ => .ite (fun _ => .pure (by simp)) fun _ => .step fun first => ?_
      refine .step fun _ => .ask fun _ => .step fun _ => .bind ih fun rest => .pure ?_
      grind

instance (fuel : Nat) : Reading text (enumerators r c fuel) (OnAll (Fits text)) :=
  ⟨fun _ _ => reads_enumerators fuel⟩

theorem reads_enumeration (hlo : Boundary text lo) (hle : lo ≤ L) :
  Reads text K L (enumeration r c lo) (Fits text lo)
  := by
  refine .step fun n => .step fun _ => .step fun members => .step fun _ => .node hlo rfl ?_
  grind

instance : Reading text (namespaceBlock r c) fun L t e => Holds text L t e ∧ L ≤ e.stop :=
  ⟨fun _ _ => .step fun _ => .step fun _ => .step fun _ => .pure (by grind)⟩

theorem reads_space (hlo : Boundary text lo) (hle : lo ≤ L) :
  Reads text K L (space r c lo) (Fits text lo)
  := by
  refine .here fun start hstart hle' => .step fun first => ?_
  refine .bind (.iterate (P := Fits text) (M := start) (fun outer => ?_) _ (by grind)) fun n => ?_
  · refine .step fun _ => .ite (fun _ => .step fun n => .answer (.node hstart rfl ?_)) fun _ => ?_
    · grind
    · exact .pure (by simp)
  · refine .step fun items => .node hlo rfl ?_
    grind

theorem reads_externalModule (hlo : Boundary text lo) (hle : lo ≤ L) :
  Reads text K L (externalModule r c lo) (Fits text lo)
  := by
  refine .ask fun _ => .step fun _ => .ask fun _ => .ite (fun _ => .step fun items => .node hlo rfl ?_) fun _ => ?_
  · grind
  · refine .step fun _ => .node hlo rfl ?_
    grind

instance : Quiet atString? := by
  refine @Quiet.bind _ _ _ _ _ fun t => ?_
  split <;> infer_instance

section

variable {front : List Tree}

/-- A class keeps the decorators in front of it. -/
theorem reads_decoratedClass {named : Bool} (hlo : Boundary text lo) (hle : lo ≤ L)
    (hfront : ∀ e, K e → OnAll (Decorates text) M front e) :
  Reads text K L (classTail r c (.declaration .classDecl) named lo front) (Fits text lo)
  := reads_classTail hlo hle rfl fun e h => parts_of_decorates (hfront e h)

theorem reads_worded {word : String} {must : Bool} (hlo : Boundary text lo) (hle : lo ≤ L)
    (hfront : ∀ e, K e → OnAll (Decorates text) M front e) :
  Reads text K L (worded? r c lo front word must) (OnSome (Fits text) lo)
  := by
  refine .ask fun _ => .ask fun _ => ?_
  extract_lets
  split
  · refine .ask fun _ => .ite (fun _ => .answer (reads_decoratedClass hlo hle hfront)) fun _ => ?_
    refine .step fun _ => .ite (fun _ => .step fun _ => ?_) fun _ => .pure (by simp)
    exact .answer (reads_interface hlo hle)
  · exact .ite (fun _ => .answer (reads_interface hlo hle)) fun _ => .pure (by simp)
  · refine .ite (fun _ => .pure (by simp)) fun _ => .ask fun _ => .ite (fun _ => .fail) fun _ => ?_
    refine .ask fun _ => .ite (fun _ => .answer (reads_externalModule hlo hle)) fun _ => ?_
    exact .ite (fun _ => .answer (reads_space hlo hle)) fun _ => .pure (by simp)
  · exact .ite (fun _ => .answer (reads_space hlo hle)) fun _ => .pure (by simp)
  · exact .ite (fun _ => .answer (reads_typeAlias hlo hle)) fun _ => .pure (by simp)
  · exact .ite (fun _ => .answer (reads_enumeration hlo hle)) fun _ => .pure (by simp)
  · exact .pure (by simp)

theorem reads_wordedFrom (hlo : Boundary text lo) (hle : lo ≤ L)
    (hfront : ∀ e, K e → OnAll (Decorates text) M front e) :
  Reads text K L (wordedFrom? r c lo front) (OnSome (Fits text) lo)
  := by
  refine .ask fun t => ?_
  split
  · refine .ite (fun _ => .step fun _ => ?_) fun _ => .pure (by simp)
    exact reads_worded hlo hle fun e h => hfront e h.1
  · exact .pure (by simp)

theorem reads_ambient (hlo : Boundary text lo) (hle : lo ≤ L)
    (hfront : ∀ e, K e → OnAll (Decorates text) M front e) :
  Reads text K L (ambient? r c lo front) (OnSome (Fits text) lo)
  := by
  refine .ask fun u => .ask fun t => ?_
  refine .ite (fun _ => .answer (reads_functionDeclaration hlo hle)) fun _ => ?_
  refine .ite (fun _ => .answer (reads_decoratedClass hlo hle hfront)) fun _ => ?_
  refine .ite (fun _ => .step fun _ => .step fun _ => .answer (reads_enumeration hlo hle)) fun _ => ?_
  refine .ite (fun _ => .answer (reads_variableList hlo hle)) fun _ => ?_
  refine .ite (fun _ => .answer (reads_externalModule hlo hle)) fun _ => ?_
  exact reads_wordedFrom hlo hle hfront

theorem reads_named {word : String} (hlo : Boundary text lo) (hle : lo ≤ L)
    (hfront : ∀ e, K e → OnAll (Decorates text) M front e) :
  Reads text K L (named? r c lo front word) (OnSome (Fits text) lo)
  := by
  refine .ite (fun _ => reads_ambient hlo hle hfront) fun _ => .ask fun _ => .ite (fun _ => ?_) fun _ => ?_
  · refine .step fun items => .answer (.node hlo rfl ?_)
    grind
  · exact reads_worded hlo hle hfront

end

/-! ### Statements -/

instance : Reading text (loneFunction r c) fun L t e => Holds text L t e ∧ L ≤ e.stop where
  reads _ _ := by
    refine .here fun lo hlo hle => .bind (reads_functionDeclaration hlo (Nat.le_refl _)) fun f => ?_
    exact .pure fun _ h => ⟨h.2.lone.lower hle, Nat.le_trans hle h.2.le_extent⟩

theorem reads_labelled {label : Tree} (hlo : Boundary text lo) (hle : lo ≤ L)
    (hlabel : ∀ e, K e → Fits text lo label e) :
  Reads text K L (labelled r c lo label) (Fits text lo)
  := by
  refine .ask fun _ => .step fun s => .node hlo rfl ?_
  grind

theorem reads_endExpression {e : Tree} (hlo : Boundary text lo)
    (he : ∀ x, K x → Fits text lo e x) :
  Reads text K L (endExpression r c lo e) (Fits text lo)
  := by
  refine .step fun _ => .ite (fun _ => .node hlo rfl (by grind)) fun _ => .ask fun _ => ?_
  refine .ite (fun _ => .step fun _ => ?_) fun _ => .fail
  refine .bind (reads_binaryFrom fun x h => he x h.1.1) fun e => .node hlo rfl ?_
  grind

theorem reads_expressionStatement {front : List Tree} (hlo : Boundary text lo) (hle : lo ≤ L)
    (hfront : ∀ e, K e → OnAll (Decorates text) M front e) :
  Reads text K L (expressionStatement r c lo front) (Fits text lo)
  := by
  refine .step fun e => ?_
  split
  · refine .step fun _ => .ite (fun _ => reads_labelled hlo hle (by grind)) fun _ => ?_
    refine .bind (g := State.extent) (P := OnSome (Fits text) lo) (.choose ?_ ?_) fun declaration => ?_
    · exact fun _ => reads_named hlo hle fun e h => hfront e h.1.1
    · exact fun _ => .pure (by simp)
    · split
      · exact .pure (by grind)
      · refine reads_endExpression hlo ?_
        grind
  · refine .step fun _ => reads_endExpression hlo ?_
    grind

theorem reads_branch (hlo : Boundary text lo) (hle : lo ≤ L) :
  Reads text K L (branch r c lo) (Fits text lo)
  := by
  refine .step fun _ => .step fun _ => .step fun test => .step fun _ => .ite (fun _ => ?_) fun _ => ?_
  · refine .step fun yes => .step fun _ => .step fun no => .node hlo rfl fun e h => ?_
    have hno : OnAll (Holds text) lo no e := h.2.imp fun _ ht => ht.1.lower hle
    grind
  · refine .step fun _ => .here fun pos hpos _ => .node hlo rfl fun e h => ⟨by grind, ?_⟩
    have hempty : Holds text lo (.series .lone [.node (.statement .empty) ⟨pos, pos⟩ []]) e :=
      holds_lone_empty rfl hpos
    grind

/-! ### Loops -/

/-- What is known of the head of a loop that was read from `lo` on. -/
@[grind] def LoopHead.Holds (text : List Char) (lo : Nat) (head : LoopHead) (e : Extent) : Prop :=
  OnAll (Source.Holds text) lo head.parts e

theorem reads_eachHead {left : Tree} (hle : lo ≤ L) (hleft : ∀ e, K e → Fits text lo left e) :
  Reads text K L (eachHead r c left) (LoopHead.Holds text lo)
  := by
  refine .step fun _ => .ite (fun _ => .step fun e => .pure ?_) fun _ => .step fun _ => .step fun e => ?_
  · grind
  · exact .pure (by grind)

theorem reads_countedHead {front : List Tree} (hle : lo ≤ L)
    (hfront : ∀ e, K e → OnAll (Fits text) lo front e) :
  Reads text K L (countedHead r c front) (LoopHead.Holds text lo)
  := by
  refine .step fun _ => .bind (g := State.extent) (P := OnAll (Fits text) lo) (.choose ?_ ?_) fun test => ?_
  · exact fun _ => .pure (by simp)
  · refine fun _ => .step fun e => .step fun _ => .pure ?_
    grind
  · refine .ask fun _ => .step fun step => .pure ?_
    grind

instance (e : Tree) : Still (eachTarget e) (Reshapes e) := by
  unfold eachTarget
  split
  · infer_instance
  · infer_instance
  · exact .flawIf (.pure (.refl e))

instance : Reading text (declaredHead r c) (LoopHead.Holds text) where
  reads _ _ := by
    refine .step fun declared => .ask fun _ => .ite (fun _ => ?_) fun _ => .step fun _ => ?_
    · exact reads_eachHead (Nat.le_refl _) fun _ h => h.2
    · refine reads_countedHead (Nat.le_refl _) ?_
      grind

instance (word : String) : Reading text (usingHead r c word) (LoopHead.Holds text) where
  reads _ _ := by
    refine .here fun lo hlo hle => .step fun _ => .step fun n => ?_
    refine .bind (.node hlo rfl fun e h => ⟨h.1.2, ?_⟩) fun declared => ?_
    · have hn : Fits text lo (.node (.declaration .declarator) n.span [n]) e := h.2.toFits.wrap rfl
      simpa using holds_series .declarators (onAll_cons.mpr ⟨hn, by simp⟩) (Nat.le_refl _)
    · refine (reads_eachHead (Nat.le_refl _) fun _ h => h.2).post fun _ _ _ h => ?_
      exact onAll_holds_lower h hle

instance : Reading text (loopHead r c) (LoopHead.Holds text) where
  reads _ _ := by
    refine .ask fun t => .ask fun u => .ask fun v => .ite (fun _ => .same) fun _ => ?_
    refine .ite (fun _ => .same) fun _ => .ite (fun _ => .step fun _ => .same) fun _ => ?_
    refine .step fun _ => .ite (fun _ => reads_countedHead (Nat.le_refl _) (by simp)) fun _ => ?_
    refine .step fun e => .ask fun _ => .ite (fun _ => .still (by simp) fun left hleft => ?_) fun _ => ?_
    · exact reads_eachHead (Nat.le_refl _) fun e h => hleft.fits h.2
    · refine .step fun _ => .step fun _ => reads_countedHead (Nat.le_refl _) ?_
      grind

theorem reads_forLoop (hlo : Boundary text lo) (hle : lo ≤ L) :
  Reads text K L (forLoop r c lo) (Fits text lo)
  := by
  refine .step fun _ => .step fun _ => .step fun _ => .step fun head => .step fun _ => ?_
  refine .step fun s => .step fun _ => .node hlo rfl ?_
  grind

theorem reads_whileLoop (hlo : Boundary text lo) (hle : lo ≤ L) :
  Reads text K L (whileLoop r c lo) (Fits text lo)
  := by
  refine .step fun _ => .step fun test => .step fun s => .node hlo rfl ?_
  grind

theorem reads_doLoop (hlo : Boundary text lo) (hle : lo ≤ L) :
  Reads text K L (doLoop r c lo) (Fits text lo)
  := by
  refine .step fun _ => .step fun s => .step fun _ => .step fun test => .step fun _ => .node hlo rfl ?_
  grind

/-! ### Switches and handlers -/

theorem reads_switchCases {seen : Bool} (fuel : Nat) :
  Reads text K L (switchCases r c fuel seen) (OnAll (Fits text) L)
  := by
  induction fuel generalizing K L seen with
  | zero => exact .fail
  | succ fuel ih =>
      refine .start fun lo hlo => .ask fun _ => .ask fun _ => .ite (fun _ => .pure (by simp)) fun _ => ?_
      refine .step fun _ => .step fun _ => .step fun test => .step fun _ => .step fun items => ?_
      refine .bind (.node hlo rfl (by grind)) fun first => .bind ih fun rest => .pure ?_
      grind

instance (fuel : Nat) (seen : Bool) :
    Reading text (switchCases r c fuel seen) (OnAll (Fits text)) :=
  ⟨fun _ _ => reads_switchCases fuel⟩

theorem reads_switch (hlo : Boundary text lo) (hle : lo ≤ L) :
  Reads text K L (switch r c lo) (Fits text lo)
  := by
  refine .step fun _ => .step fun e => .step fun _ => .step fun cases => .step fun _ => ?_
  refine .node hlo rfl ?_
  grind

instance : Reading text (handledParameter r c) (OnAll (Fits text)) :=
  ⟨fun _ _ => .step fun _ => .step fun _ => .step fun _ => .pure (by grind)⟩

theorem reads_handlerTail (hlo : Boundary text lo) (hle : lo ≤ L) :
  Reads text K L (handlerTail r c lo) (Fits text lo)
  := by
  refine .step fun _ => .step fun parameter => .step fun block => .node hlo rfl ?_
  grind

instance : Reading text (handler r c) (Fits text) :=
  ⟨fun _ _ => .start fun _ hlo => .step fun _ => reads_handlerTail hlo (Nat.le_refl _)⟩

theorem reads_guarded (hlo : Boundary text lo) (hle : lo ≤ L) :
  Reads text K L (guarded r c lo) (Fits text lo)
  := by
  refine .step fun _ => .step fun block => .ask fun _ => .step fun caught => .step fun _ => ?_
  refine .step fun finished => .step fun _ => .node hlo rfl ?_
  grind

theorem reads_strayHandlers (hlo : Boundary text lo) (hle : lo ≤ L) :
  Reads text K L (strayHandlers r c lo) (Fits text lo)
  := by
  refine .step fun _ => .step fun caught => ?_
  refine .bind (g := State.extent) (P := OnSome (Fits text) lo) (.choose ?_ ?_) fun _ => ?_
  · exact fun _ => .recover (reads_handlerTail hlo hle)
  · exact fun _ => .pure (by simp)
  · refine .step fun finished => .step fun _ => .step fun _ => .node hlo rfl ?_
    grind

/-! ### Jumps -/

theorem reads_jump {word : String} {operand : Parser Tree} (hlo : Boundary text lo) (hle : lo ≤ L)
    (hoperand : ∀ K, Reads text K L operand (Fits text L)) :
  Reads text K L (jump lo word operand) (Fits text lo)
  := by
  refine .step fun _ => .ask fun _ => .ask fun _ => .ite (fun _ => .step fun _ => .node hlo rfl ?_) fun _ => ?_
  · grind
  · refine .bind (hoperand _) fun e => .step fun _ => .node hlo rfl ?_
    grind

theorem reads_throwing (hlo : Boundary text lo) (hle : lo ≤ L) :
  Reads text K L (throwing r c lo) (Fits text lo)
  := by
  refine .step fun _ => .ask fun _ => .step fun _ => .step fun e => .step fun _ => .node hlo rfl ?_
  grind

theorem reads_importStatement (hlo : Boundary text lo) (hle : lo ≤ L) :
  Reads text K L (importStatement r c lo) (Fits text lo)
  := by
  refine .step fun e => .step fun _ => .node hlo rfl ?_
  grind

/-! ### All statements -/

section

variable {front : List Tree} {declares : Bool}

theorem reads_wordStatement {w : String} (hlo : Boundary text lo) (hle : lo ≤ L)
    (hfront : ∀ e, K e → OnAll (Decorates text) M front e) :
  Reads text K L (wordStatement r c lo front declares w) (Fits text lo)
  := by
  refine .ask fun t => .ask fun u => .ask fun v => ?_
  extract_lets
  refine .ite (fun _ => .step fun _ => .step fun _ => reads_enumeration hlo hle) fun _ => ?_
  refine .ite (fun _ => reads_variableList hlo hle) fun _ => ?_
  refine .ite (fun _ => .step fun _ => reads_variableList hlo hle) fun _ => ?_
  refine .ite (fun _ => .step fun _ => reads_functionDeclaration hlo hle) fun _ => ?_
  split
  · exact reads_branch hlo hle
  · exact reads_forLoop hlo hle
  · exact reads_whileLoop hlo hle
  · exact reads_doLoop hlo hle
  · exact reads_switch hlo hle
  · exact reads_guarded hlo hle
  · exact reads_strayHandlers hlo hle
  · exact reads_strayHandlers hlo hle
  · exact .step fun _ => reads_jump hlo hle fun _ => .same
  · exact reads_jump hlo hle fun _ => .last fun _ _ _ h => h.toFits
  · exact reads_jump hlo hle fun _ => .last fun _ _ _ h => h.toFits
  · exact reads_throwing hlo hle
  · exact .step fun _ => .step fun _ => .node hlo rfl (by grind)
  · exact .step fun _ => .step fun e => .step fun s => .node hlo rfl (by grind)
  · exact reads_variableList hlo hle
  · exact .ite (fun _ => reads_variableList hlo hle) fun _ => .fail
  · refine .ite (fun _ => reads_variableList hlo hle) fun _ => ?_
    exact reads_expressionStatement hlo hle hfront
  · exact .step fun _ => reads_functionDeclaration hlo hle
  · exact .step fun _ => reads_decoratedClass hlo hle fun e h => hfront e h.1
  · refine .ite (fun _ => .step fun _ => reads_interface hlo hle) fun _ => ?_
    exact reads_expressionStatement hlo hle hfront
  · refine .ite (fun _ => .step fun _ => reads_typeAlias hlo hle) fun _ => ?_
    exact reads_expressionStatement hlo hle hfront
  · refine .ite (fun _ => .step fun _ => reads_enumeration hlo hle) fun _ => ?_
    exact reads_expressionStatement hlo hle hfront
  · exact .ite (fun _ => reads_importStatement hlo hle) fun _ => .fail
  · exact reads_expressionStatement hlo hle hfront

theorem reads_statementFrom (hlo : Boundary text lo) (hle : lo ≤ L)
    (hfront : ∀ e, K e → OnAll (Decorates text) M front e) :
  Reads text K L (statementFrom r c lo front declares) (Fits text lo)
  := by
  refine .ask fun t => ?_
  split
  · exact reads_wordStatement hlo hle hfront
  · exact .step fun _ => .node hlo rfl (by grind)
  · exact .last fun _ _ _ h => h.lower hle
  · exact .fail
  · exact reads_expressionStatement hlo hle hfront

end

instance (declares : Bool) : Reading text (statement r c declares) (Fits text) where
  reads _ _ := by
    refine .start fun lo hlo => .step fun front => ?_
    exact reads_statementFrom hlo (Nat.le_refl _) fun e h => h.2

end Prune.Source.Grammar
