import Prune.Proofs.Source.Grammar.Types
import Prune.Source.Grammar.Functions

/-!
# Layout of functions and classes

Functions and classes with their members are laid out as they were read.  The decorators of a class
that is declared may stand in front of it.
-/

namespace Prune.Source.Grammar

open Prune.Source.Parser Text

variable {text : List Char} {r : Rules} {c : Context} [Rules.Reads text r]
  {K : Extent → Prop} {L lo : Nat}

instance : Reading text (functionBody r c) (OnAll (Fits text)) where
  reads _ _ := by
    refine .ask fun _ => .ite (fun _ => .step fun _ => .pure ?_) fun _ => .ite (fun _ => .fail) fun _ => ?_
    · grind
    · exact .step fun _ => .pure (by simp)

instance (listed isAsync isGenerator : Bool) :
    Reading text (functionTail r c listed isAsync isGenerator) fun L ts e =>
      OnAll (Holds text) L ts e ∧ L ≤ e.stop where
  reads _ _ := by
    refine .step fun types => .step fun _ => .step fun items => .step fun _ => .ask fun _ => ?_
    refine .step fun result => .step fun body => .pure ?_
    grind

theorem reads_functionDeclaration {named isAsync : Bool} (hlo : Boundary text lo) (hle : lo ≤ L) :
  Reads text K L (functionDeclaration r c named isAsync lo) (Fits text lo)
  := by
  refine .step fun _ => .step fun _ => .ask fun _ => .step fun n => .step fun tail => ?_
  refine .node hlo rfl ?_
  grind

theorem reads_functionExpression {isAsync : Bool} (hlo : Boundary text lo) (hle : lo ≤ L) :
  Reads text K L (functionExpression r c isAsync lo) (Fits text lo)
  := by
  refine .step fun _ => .step fun _ => .ask fun _ => .step fun n => .step fun tail => ?_
  refine .ite (fun _ => .node hlo rfl ?_) fun _ => .fail
  grind

/-! ### Members of classes -/

instance : Quiet (atMethod? c) := by unfold atMethod?; infer_instance
instance (mayEnd : Bool) : Quiet (atProperty? c mayEnd) := by unfold atProperty?; infer_instance

section

variable {front : List Tree} {key : Tree} {words : List String} {start : State}

theorem reads_methodTail {isAsync isGenerator : Bool} (hlo : Boundary text lo) (hle : lo ≤ L)
    (hfront : ∀ e, K e → OnAll (Holds text) lo front e) :
  Reads text K L (methodTail r c words lo front isAsync isGenerator) (Fits text lo)
  := by
  refine .step fun tail => .node hlo rfl ?_
  grind

theorem reads_propertyTail (hlo : Boundary text lo) (hle : lo ≤ L)
    (hfront : ∀ e, K e → OnAll (Holds text) lo front e) (hkey : ∀ e, K e → Fits text lo key e) :
  Reads text K L (propertyTail r c words lo front key) (Fits text lo)
  := by
  refine .step fun _ => .step fun _ => .step fun type => .step fun value => .step fun _ => ?_
  refine .step fun _ => .node hlo rfl ?_
  grind

theorem reads_constructorTail (hlo : Boundary text lo) (hle : lo ≤ L)
    (hfront : ∀ e, K e → OnAll (Holds text) lo front e) :
  Reads text K L (constructorTail r c words lo front) (Fits text lo)
  := by
  refine .step fun types => .step fun _ => .step fun items => .step fun _ => .step fun result => ?_
  refine .step fun body => .node hlo rfl ?_
  grind

instance : Reading text (memberName r c) (Fits text) :=
  ⟨fun _ _ => .ask fun _ => .ite (fun _ => .same) fun _ => .same⟩

theorem reads_memberModifiers {q : Qualifiers} (fuel : Nat) :
  Reads text K L (memberModifiers c fuel q) fun _ _ => True
  := by
  induction fuel generalizing K q with
  | zero => exact .fail
  | succ fuel ih =>
      refine .ask fun _ => .step fun word => ?_
      split
      · exact ih
      · exact .pure fun _ _ => trivial

instance (fuel : Nat) (q : Qualifiers) : Reading text (memberModifiers c fuel q) fun _ _ _ => True :=
  ⟨fun _ _ => reads_memberModifiers fuel⟩

theorem reads_staticBlock (hlo : Boundary text lo) (hle : lo ≤ L) :
  Reads text K L (staticBlock r c lo) (Fits text lo)
  := by
  refine .step fun body => .node hlo rfl ?_
  grind

theorem reads_asyncMember {isConstant : Bool} (hlo : Boundary text lo) (hle : lo ≤ L)
    (hfront : ∀ e, K e → OnAll (Holds text) lo front e) :
  Reads text K L (asyncMember r c start lo front isConstant) (Fits text lo)
  := by
  refine .step fun _ => .step fun _ => .step fun _ => .step fun key => .step fun _ => ?_
  refine .step fun _ => reads_methodTail hlo hle ?_
  grind

theorem reads_namedMember {isConstant : Bool} (hlo : Boundary text lo) (hle : lo ≤ L)
    (hfront : ∀ e, K e → OnAll (Holds text) lo front e) (hkey : ∀ e, K e → Fits text lo key e) :
  Reads text K L (namedMember r c start lo front key isConstant) (Fits text lo)
  := by
  refine .step fun _ => .ask fun _ => .ite (fun _ => .ite (fun _ => .fail) fun _ => ?_) fun _ => ?_
  · refine .ite (fun _ => reads_constructorTail hlo hle ?_) fun _ => reads_methodTail hlo hle ?_
    all_goals grind
  · refine .ask fun _ => .ask fun _ => .ask fun _ => .ite (fun _ => ?_) fun _ => ?_
    · refine .step fun key => reads_methodTail hlo hle ?_
      grind
    · refine .ask fun _ => .ite (fun _ => reads_propertyTail hlo hle ?_ ?_) fun _ => ?_
      · grind
      · grind
      · refine .ask fun _ => .ite (fun _ => reads_asyncMember hlo hle ?_) fun _ => .fail
        grind

theorem reads_qualifiedMember {isStatic hasAccess : Bool} (hlo : Boundary text lo) (hle : lo ≤ L)
    (hfront : ∀ e, K e → OnAll (Holds text) lo front e) :
  Reads text K L (qualifiedMember r c start lo front isStatic hasAccess) (Fits text lo)
  := by
  refine .step fun q => .step fun _ => .ask fun _ => .ask fun _ => .ite (fun _ => ?_) fun _ => ?_
  · exact reads_staticBlock hlo hle
  · refine .ask fun _ => .ite (fun _ => .step fun _ => reads_staticBlock hlo hle) fun _ => ?_
    refine .ask fun _ => .ite (fun _ => reads_indexSignature hlo hle) fun _ => .step fun _ => ?_
    refine .ite (fun _ => .step fun key => .step fun _ => reads_methodTail hlo hle ?_) fun _ => ?_
    · grind
    · refine .step fun key => reads_namedMember hlo hle ?_ ?_
      all_goals grind

theorem reads_qualifierAsName {word : Option Tree} {mayEnd : Bool} (hlo : Boundary text lo)
    (hle : lo ≤ L) (hfront : ∀ e, K e → OnAll (Holds text) lo front e)
    (hword : ∀ e, K e → OnSome (Fits text) lo word e) :
  Reads text K L (qualifierAsName? r c start lo front word mayEnd) (OnSome (Fits text) lo)
  := by
  unfold qualifierAsName?
  split
  · exact .pure (by simp)
  · refine .ask fun _ => .ask fun _ => .ask fun _ => .ask fun _ => .ite (fun _ => ?_) fun _ => ?_
    · refine .answer (reads_namedMember hlo hle hfront ?_)
      exact fun e h => onSome_some.mp (hword e h)
    · exact .pure (by simp)

end

instance : Reading text (classMember r c) (Fits text) where
  reads _ _ := by
    refine .start fun lo hlo => .step fun _ => .ite (fun _ => .node hlo rfl (by grind)) fun _ => ?_
    refine .step fun front => .ask fun start => .step fun early => .step fun access => ?_
    refine .step fun late => ?_
    refine .bind (reads_qualifierAsName hlo (Nat.le_refl _) ?_ ?_) fun named => ?_
    · grind
    · exact fun e h => onSome_orElse h.1.1.2 h.2
    · split
      · exact .pure (by grind)
      · refine .step fun word => .bind (reads_qualifierAsName hlo (Nat.le_refl _) ?_ ?_) fun _ => ?_
        · grind
        · grind
        · split
          · exact .pure (by grind)
          · refine reads_qualifiedMember hlo (Nat.le_refl _) ?_
            grind

/-! ### Classes -/

instance : Reading text (heritageType r c) (Fits text) where
  reads _ _ := by
    refine .start fun lo hlo => .step fun e => .ask fun _ => .step fun types => .node hlo rfl ?_
    grind

instance : Quiet atHeritageEnd? := by unfold atHeritageEnd?; infer_instance

theorem reads_heritageList (fuel : Nat) :
  Reads text K L (heritageList r c fuel) (OnAll (Fits text) L)
  := by
  induction fuel generalizing K with
  | zero => exact .fail
  | succ fuel ih =>
      refine .ask fun _ => .ite (fun _ => .pure (by simp)) fun _ => .step fun first => ?_
      refine .step fun _ => .ask fun _ => .step fun _ => .bind ih fun rest => .pure ?_
      grind

instance (fuel : Nat) : Reading text (heritageList r c fuel) (OnAll (Fits text)) :=
  ⟨fun _ _ => reads_heritageList fuel⟩

instance : Reading text (superClass r c) (OnAll (Fits text)) :=
  ⟨fun _ _ => .step fun _ => .ask fun _ => .step fun _ => .pure (by grind)⟩

instance (allowed : Bool) : Reading text (extended? r c allowed) (OnAll (Fits text)) :=
  ⟨fun _ _ => .step fun _ => .ite (fun _ => .same) fun _ => .pure (by simp)⟩

instance : Reading text (implemented? r c) (OnAll (Fits text)) :=
  ⟨fun _ _ => .step fun _ => .ite (fun _ => .same) fun _ => .pure (by simp)⟩

instance : Reading text (classHeritage r c) (OnAll (Fits text)) where
  reads _ _ := by
    refine .step fun first => .step fun _ => .step fun others => .step fun again => ?_
    refine .step fun _ => .step fun implemented => .step fun _ => .step fun late => .pure ?_
    grind

/-- A class is laid out where its decorators are or may stand in front of it. -/
theorem reads_classTail {kind : Kind} {named : Bool} {front : List Tree} (hlo : Boundary text lo)
    (hle : lo ≤ L) (hkind : kind.isFrame = false) (hfront : ∀ e, K e → Parts text kind lo front e) :
  Reads text K L (classTail r c kind named lo front) (Fits text lo)
  := by
  refine .step fun _ => .ask fun _ => .ask fun _ => .step fun n => .step fun types => ?_
  refine .step fun heritage => .step fun _ => .step fun members => .step fun _ => ?_
  refine (ReadsWhen.nodeOfParts hlo hkind fun e h => ⟨by grind, ?_⟩).post fun _ _ _ => And.left
  have hrest : OnAll (Holds text) lo (n ++ types ++ heritage ++ [.series .block members]) e := by
    grind
  have hparts := parts_append.mpr ⟨hfront e (by grind), parts_of_onAll hrest⟩
  simpa only [List.append_assoc] using hparts

end Prune.Source.Grammar
