import Prune.Proofs.Source.Reading
import Prune.Source.Grammar.Patterns

/-!
# Layout of patterns

The names of properties, patterns and parameters are laid out as they were read.
-/

namespace Prune.Source.Grammar

open Prune.Source.Parser Text

variable {text : List Char} {r : Rules} {c : Context} [Rules.Reads text r]

instance : Reading text (computedKey r c) (Fits text) where
  reads _ _ := by
    refine .start fun lo hlo => .step fun first => .ask fun _ => .ite (fun _ => ?_) fun _ => ?_
    · refine .step fun _ => .step fun rest => .node hlo rfl ?_
      grind
    · exact .pure (by grind)

instance : Reading text (propertyName r c) (Fits text) where
  reads _ _ := by
    refine .start fun lo hlo => .ask fun t => ?_
    split
    case h_5 =>
      refine .step fun _ => .step fun e => .step fun _ => .node hlo rfl ?_
      grind
    case h_6 => exact .fail
    all_goals exact .last fun _ _ _ => Binds.toFits

instance : Reading text (typeAscription r c) (Fits text) where
  reads _ _ := by
    refine .start fun lo hlo => .step fun _ => .step fun t => .node hlo rfl ?_
    grind

instance : Reading text (ascription? r c) (OnAll (Fits text)) where
  reads _ _ := by
    refine .ask fun _ => .ite (fun _ => .step fun t => .pure ?_) fun _ => .pure (by simp)
    grind

instance : Reading text (initializer? r c) (OnAll (Fits text)) where
  reads _ _ := by
    refine .step fun _ => .ite (fun _ => .step fun t => .pure ?_) fun _ => .pure (by simp)
    grind

theorem reads_withDefault {K : Extent → Prop} {L lo : Nat} {pattern : Tree} (hlo : Boundary text lo)
    (hle : lo ≤ L) (hpattern : ∀ e, K e → Binds text lo pattern e) :
  Reads text K L (withDefault r c lo pattern) (Binds text lo)
  := by
  refine .step fun defaults => ?_
  split
  · exact .pure fun e h => hpattern e h.1
  · refine .binds hlo rfl ?_
    grind

instance : Reading text (bindingElement r c) (Binds text) where
  reads _ _ := by
    refine .start fun lo hlo => .step fun pattern => ?_
    exact reads_withDefault hlo (Nat.le_refl _) fun e h => h.2

instance : Reading text (restElement r c) (Fits text) where
  reads _ _ := by
    refine .start fun lo hlo => .step fun _ => .step fun pattern => .ask fun _ => ?_
    refine .step fun _ => .node hlo rfl ?_
    grind

instance : Reading text (arrayPatternElement r c) (Sits text) where
  reads _ _ := by
    refine .start fun lo hlo => .ask fun _ => .ite (fun _ => .pure fun _ _ => sits_hole hlo) fun _ => ?_
    refine .ask fun _ => .ite (fun _ => ?_) fun _ => ?_
    · exact .last fun _ _ _ => Fits.sits
    · exact .last fun _ _ _ h => h.toFits.sits

instance : Reading text (objectPatternProperty r c) (Fits text) where
  reads _ _ := by
    refine .start fun lo hlo => .ask fun _ => .ite (fun _ => .same) fun _ => ?_
    refine .step fun key => .step fun _ => .ite (fun _ => ?_) fun _ => ?_
    · refine .step fun value => .node hlo rfl ?_
      grind
    · split
      · refine .step fun defaults => .step fun _ => .node hlo rfl ?_
        grind
      · exact .fail

instance : Reading text (binding r c) (Binds text) where
  reads _ _ := by
    refine .start fun lo hlo => .ask fun t => ?_
    split
    · refine .step fun _ => .step fun elements => .step fun _ => .step fun _ => .binds hlo rfl ?_
      grind
    · refine .step fun _ => .step fun properties => .step fun _ => .step fun _ => .step fun _ => ?_
      refine .binds hlo rfl ?_
      grind
    · exact .same

/-! ### Parameters -/

instance (words : List String) : Reading text (modifier? c words) fun _ _ _ => True where
  reads _ _ := by
    refine .ask fun t => .ask fun u => ?_
    split
    · refine .ite (fun _ => .step fun _ => ?_) fun _ => ?_
      all_goals exact .pure fun _ _ => trivial
    · exact .pure fun _ _ => trivial

instance : Reading text (parameterModifier? c) fun _ _ _ => True :=
  ⟨fun _ _ => .ask fun _ => .ask fun _ => .step fun _ => .pure fun _ _ => trivial⟩

instance (defaulted : Bool) : Reading text (restParameter r c defaulted) (Fits text) where
  reads _ _ := by
    refine .start fun lo hlo => .step fun _ => .step fun pattern => .step fun defaults => ?_
    refine .step fun _ => .step fun type => .bind (P := Fits text lo) (.node hlo rfl ?_) fun rest => ?_
    · grind
    · exact .step fun _ => .ask fun _ => .step fun _ => .pure (by grind)

instance : Reading text (formalPattern r c) (Fits text) where
  reads _ _ := by
    refine .step fun _ => .step fun _ => .start fun lo hlo => .step fun element => ?_
    refine .step fun _ => .step fun _ => .step fun type => .step fun defaults => ?_
    split
    · split
      · exact .pure (by grind)
      · refine .given (fun e h => h.1.1.1.1.2.plain) fun hplain => .node hlo ?_ ?_
        · cases hkind : element.kind? <;> simp_all [Kind.isFrame]
        · grind
    · refine .node hlo rfl ?_
      grind

instance : Reading text (formalParameter r c) (Fits text) where
  reads _ _ := by
    refine .start fun lo hlo => .step fun decorators => .ask fun _ => .ask fun _ => ?_
    refine .step fun pattern => .node hlo rfl ?_
    grind

instance : Reading text (formalParameters r c) (OnAll (Fits text)) := by
  unfold formalParameters
  infer_instance

instance : Reading text (constructorPattern r c) (Fits text) :=
  ⟨fun _ _ => .step fun _ => .step fun _ => .step fun _ => .step fun _ => .step fun _ =>
    .pure (by grind)⟩

instance : Reading text (constructorParameter r c) (Fits text) where
  reads _ _ := by
    refine .start fun lo hlo => .step fun decorators => .ask fun _ => .ask fun _ => ?_
    refine .step fun pattern => .node hlo rfl ?_
    grind

end Prune.Source.Grammar
