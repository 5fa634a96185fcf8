import Prune.Proofs.Source.Grammar.Patterns
import Prune.Source.Grammar.Types

/-!
# Layout of types

Types, their parameters and arguments, and the members of records are laid out as they were read.
-/

namespace Prune.Source.Grammar

open Prune.Source.Parser Text

variable {text : List Char} {r : Rules} {c : Context} [Rules.Reads text r]
  {K : Extent → Prop} {L lo : Nat}

/-! ### Parameters and arguments -/

theorem reads_typeParameterModifiers (fuel : Nat) :
  Reads text K L (typeParameterModifiers c fuel) fun _ _ => True
  := by
  induction fuel generalizing K with
  | zero => exact .fail
  | succ fuel ih =>
      refine .step fun word => ?_
      split
      · exact ih
      · exact .pure fun _ _ => trivial

instance (fuel : Nat) : Reading text (typeParameterModifiers c fuel) fun _ _ _ => True :=
  ⟨fun _ _ => reads_typeParameterModifiers fuel⟩

instance : Reading text (typeParameter r c) (Fits text) where
  reads _ _ := by
    refine .start fun lo hlo => .step fun _ => .step fun n => .step fun _ => .step fun bound => ?_
    refine .step fun _ => .step fun default => .node hlo rfl ?_
    grind

instance : Reading text (typeParameters r c) (Fits text) where
  reads _ _ := by
    refine .start fun lo hlo => .step fun _ => .step fun items => .step fun _ => .node hlo rfl ?_
    grind

instance : Reading text (typeParameters? r c) (OnAll (Fits text)) where
  reads _ _ := by
    refine .ask fun _ => .ite (fun _ => .step fun t => .pure ?_) fun _ => .pure (by simp)
    grind

instance (alone : Bool) : Reading text (closeArguments alone) fun L _ e => L ≤ e.stop :=
  ⟨fun _ _ => .ask fun _ => .ask fun _ => .ite (fun _ => .fail) fun _ => .last fun _ _ _ => id⟩

/-- A mark that is cut stands where it stood before. -/
theorem located_cut {t : Token} (ht : t.Located text) (hmark : t.isPunct "<<" = true) :
  t.cut.Located text ∧ t.cut.span.lo = t.span.lo ∧ t.cut.comments = t.comments
  := by
  obtain ⟨⟨tail, htail⟩, -⟩ := ht.punct _ (Token.kind_of_isPunct hmark) (by decide)
  refine ⟨ht.cut htail.symm rfl, ?_, ?_⟩
  all_goals
    unfold Token.cut
    split <;> rfl

instance : Reading text cutDouble fun _ _ _ => True where
  reads _ _ := by
    refine .token fun t => .ite (fun hmark => .peek fun u => .replace ?_) fun _ =>
      .pure fun _ _ => trivial
    rintro s ⟨⟨-, rfl⟩, rfl⟩ hsound
    exact located_cut hsound.tok hmark

instance (alone : Bool) : Reading text (typeArguments r c alone) (Fits text) where
  reads _ _ := by
    refine .start fun lo hlo => .step fun _ => .step fun _ => .step fun items => .step fun _ => ?_
    refine .node hlo rfl ?_
    grind

instance : Reading text (typeArguments? r c) (OnAll (Fits text)) where
  reads _ _ := by
    refine .ask fun _ => .ask fun _ => .ite (fun _ => .step fun t => .pure ?_) fun _ =>
      .pure (by simp)
    grind

/-! ### Names -/

theorem reads_qualifiedStep {word : Parser Tree} [Reading text word (Binds text)] {qualifier : Tree}
    (hlo : Boundary text lo) (hle : lo ≤ L) (hqualifier : ∀ e, K e → Fits text lo qualifier e) :
  Reads text K L (qualifiedStep word lo qualifier) (OnSome (Fits text) lo)
  := by
  refine .step fun _ => .ite (fun _ => .ask fun _ => .ask fun _ => .ite (fun _ => ?_) fun _ => ?_)
    fun _ => .pure (by simp)
  · refine .step fun n => .answer (.node hlo rfl ?_)
    grind
  · exact .step fun _ => .pure (by simp)

instance : Reading text (entityName r) (Fits text) where
  reads _ _ := by
    refine .start fun lo hlo => .step fun first => .iterate (fun _ => ?_) _ (by grind)
    exact reads_qualifiedStep hlo (Nat.le_refl _) fun _ h => h.2

instance : Reading text (qualifiedName r c) (Fits text) where
  reads _ _ := by
    refine .start fun lo hlo => .step fun first => .iterate (fun _ => ?_) _ (by grind)
    exact reads_qualifiedStep hlo (Nat.le_refl _) fun _ h => h.2

instance : Reading text (typeReference r c) (Fits text) where
  reads _ _ := by
    refine .start fun lo hlo => .step fun _ => .step fun _ => .step fun n => .step fun arguments => ?_
    refine .node hlo rfl ?_
    grind

/-! ### Functions -/

instance (mark : String) : Reading text (resultType r c mark) (Fits text) where
  reads _ _ := by
    refine .start fun lo hlo => .step fun _ => .ask fun _ => .ask fun _ => .step fun _ => ?_
    refine .ask fun _ => .ask fun _ => .ite (fun _ => ?_) fun _ => ?_
    · refine .step fun n => .step fun _ => .ite (fun _ => .step fun type => ?_) fun _ => ?_
      all_goals exact .node hlo rfl (by grind)
    · exact .step fun type => .node hlo rfl (by grind)

instance : Reading text (signatureParameters r c) fun L ts e =>
    OnAll (Fits text) L ts e ∧ L ≤ e.stop :=
  ⟨fun _ _ => .step fun _ => .step fun _ => .step fun _ => .step fun _ => .pure (by grind)⟩

instance {r : Rules} : Quiet (startsFunctionType r c) := by unfold startsFunctionType; infer_instance

instance : Reading text (functionType r c) (Fits text) where
  reads _ _ := by
    refine .start fun lo hlo => .step fun _ => .step fun _ => .step fun parameters => ?_
    refine .step fun items => .step fun result => .node hlo rfl ?_
    grind

/-! ### Members of records -/

instance : Reading text endMember fun _ _ _ => True :=
  ⟨fun _ _ => .step fun _ => .ite (fun _ => .pure fun _ _ => trivial) fun _ =>
    .last fun _ _ _ => id⟩

instance : Quiet (startsIndexSignature c) := by unfold startsIndexSignature; infer_instance

theorem reads_indexSignature (hlo : Boundary text lo) (hle : lo ≤ L) :
  Reads text K L (indexSignature r c lo) (Fits text lo)
  := by
  refine .step fun _ => .step fun n => .step fun _ => .step fun _ => .step fun key => ?_
  refine .step fun _ => .step fun type => .step fun _ => .node hlo rfl ?_
  grind

theorem reads_callSignature {key : List Tree} (hlo : Boundary text lo) (hle : lo ≤ L)
    (hkey : ∀ e, K e → OnAll (Fits text) lo key e) :
  Reads text K L (callSignature r c lo key) (Fits text lo)
  := by
  refine .step fun parameters => .step fun items => .ask fun _ => .step fun result => ?_
  refine .step fun _ => .node hlo rfl ?_
  grind

instance : Reading text (signatureName r c) (Fits text) where
  reads _ _ := by
    refine .start fun lo hlo => .ask fun t => ?_
    split
    case h_3 =>
      refine .step fun _ => .step fun e => .step fun _ => .node hlo rfl ?_
      grind
    case h_4 => exact .step fun _ => .last fun _ _ _ => id
    case h_5 => exact .last fun _ _ _ => Binds.toFits
    all_goals exact .same

theorem reads_propertySignature {constant : Bool} (hlo : Boundary text lo) (hle : lo ≤ L) :
  Reads text K L (propertySignature r c lo constant) (Fits text lo)
  := by
  refine .step fun key => .step fun _ => .ask fun _ => .ite (fun _ => ?_) fun _ => ?_
  · refine .ite (fun _ => .fail) fun _ => reads_callSignature hlo hle ?_
    grind
  · refine .step fun type => .step fun _ => .node hlo rfl ?_
    grind

theorem reads_accessorSignature (hlo : Boundary text lo) (hle : lo ≤ L) :
  Reads text K L (accessorSignature r c lo) (OnSome (Fits text) lo)
  := by
  refine .step fun _ => .step fun _ => .step fun key => .ite (fun _ => ?_) fun _ => ?_
  · refine .step fun _ => .step fun _ => .step fun type => .step fun _ => ?_
    refine .answer (.node hlo rfl ?_)
    grind
  · refine .step fun items => .step fun _ => .step fun _ => ?_
    refine .answer (.node hlo rfl ?_)
    grind

instance : Reading text (typeMember r c) (Fits text) where
  reads _ _ := by
    refine .start fun lo hlo => .ask fun _ => .ask fun _ => .ite (fun _ => ?_) fun _ => ?_
    · exact reads_callSignature hlo (Nat.le_refl _) (by simp)
    · refine .ask fun _ => .ite (fun _ => .step fun _ => ?_) fun _ => ?_
      · exact reads_callSignature hlo (Nat.le_refl _) (by simp)
      · refine .step fun constant => .ask fun _ => .ite (fun _ => ?_) fun _ => ?_
        · exact reads_indexSignature hlo (Nat.le_refl _)
        · refine .bind (.attemptIf fun _ => reads_accessorSignature hlo (Nat.le_refl _)) fun _ => ?_
          split
          · exact .pure (by grind)
          · exact reads_propertySignature hlo (Nat.le_refl _)

instance : Reading text (typeMembers r c) fun L t e => Holds text L t e ∧ L ≤ e.stop :=
  ⟨fun _ _ => .step fun _ => .step fun _ => .step fun _ => .pure (by grind)⟩

instance : Quiet (startsMappedType c) := by unfold startsMappedType; infer_instance

instance {change : Parser Bool} {P : Nat → Bool → Extent → Prop} [Reading text change P] :
    Reading text (mappedModifier change) fun _ _ _ => True where
  reads _ _ := by
    refine .ask fun _ => .ite (fun _ => .step fun _ => .step fun _ => ?_) fun _ => ?_
    · exact .ite (fun _ => .pure fun _ _ => trivial) fun _ => .fail
    · exact .step fun _ => .pure fun _ _ => trivial

instance : Reading text (mappedType r c) (Fits text) where
  reads _ _ := by
    refine .start fun lo hlo => .step fun _ => .step fun _ => .step fun _ => .step fun n => ?_
    refine .step fun _ => .step fun keys => .step fun _ => .step fun renamed => .step fun _ => ?_
    refine .step fun _ => .step fun type => .step fun _ => .step fun _ => .node hlo rfl ?_
    grind

/-! ### Other types -/

instance : Reading text elementLabel? (OnSome (Fits text)) where
  reads _ _ := by
    refine .attempt (.step fun _ => .step fun n => .step fun _ => .step fun _ => .pure ?_)
    grind

instance : Reading text (tupleElement r c) fun L a e => Fits text L a.tree e where
  reads _ _ := by
    refine .here fun lo hlo hle => .step fun label => .step fun _ => .step fun type => ?_
    refine .step fun _ => .bind (P := Fits text lo) (.node hlo rfl ?_) fun _ => .pure ?_
    all_goals grind

theorem reads_templateParts {lenient : Bool} {hole : Parser Tree} [Reading text hole (Fits text)]
    (fuel : Nat) :
  Reads text K L (templateParts lenient hole fuel) fun ts e =>
    OnAll (Holds text) L ts e ∧ L ≤ e.stop
  := by
  induction fuel generalizing K with
  | zero => exact .fail
  | succ fuel ih =>
      refine .peek fun t => ?_
      split
      · exact .fail
      · next piece hpiece =>
        have hrest := stands_piece hpiece
        refine .still (by simp) fun _ _ => ?_
        refine .facing (φ := L ≤ t.span.hi) ?_ fun hL => ?_
        · rintro s ⟨-, rfl⟩ hsound hL
          exact Nat.le_trans hL hsound.tok.le
        refine .bind (.extend (.take ?_)) fun _ => ?_
        · rintro s ⟨-, rfl⟩ hsound
          have := hsound.tok.le
          exact ⟨hsound.tok.rest.trans hrest, rfl, by simp only; omega, rfl⟩
        have hpiece (e : Extent) (he : t.span.hi + piece.size ≤ e.stop) :
            Holds text L (.node (.piece piece.value) ⟨t.span.hi, t.span.hi + piece.size⟩ []) e :=
          holds_leaf rfl (Nat.le_add_right _ _) hL he
        refine .ite (fun _ => .step fun e => .ask fun _ => .ite (fun _ => ?_) fun _ => .fail) fun _ => ?_
        · refine .bind ih fun parts => .pure ?_
          grind
        · exact .pure (by grind)

instance (lenient : Bool) {hole : Parser Tree} [Reading text hole (Fits text)] (fuel : Nat) :
    Reading text (templateFrom lenient hole fuel) fun L ts e =>
      OnAll (Holds text) L ts e ∧ L ≤ e.stop where
  reads _ _ := by
    refine .ask fun _ => ?_
    split
    · exact reads_templateParts fuel
    · exact .fail

instance : Reading text (templateType r c) (Fits text) where
  reads _ _ := by
    refine .start fun lo hlo => .step fun parts => .node hlo rfl ?_
    grind

instance : Reading text importedName fun _ _ _ => True where
  reads _ _ := by
    refine .ask fun _ => ?_
    split
    · exact .last fun _ _ _ _ => trivial
    · exact .step fun _ => .last fun _ _ _ _ => trivial

instance : Reading text (importOptions r c) (Fits text) where
  reads _ _ := by
    refine .start fun lo hlo => .step fun _ => .step fun _ => .step fun _ => .ask fun _ => ?_
    refine .step fun options => .step fun _ => .step fun _ => .node hlo rfl ?_
    grind

instance : Reading text (importedType r c) (Fits text) where
  reads _ _ := by
    refine .start fun lo hlo => .step fun _ => .step fun _ => .step fun _ => .step fun _ => ?_
    refine .ask fun _ => .step fun options => .step fun _ => .step fun _ => .step fun qualifier => ?_
    refine .ask fun _ => .step fun types => .node hlo rfl ?_
    grind

instance : Reading text (queriedType r c) (Fits text) where
  reads _ _ := by
    refine .start fun lo hlo => .step fun _ => .ask fun _ => .ite (fun _ => ?_) fun _ => ?_
    · exact .step fun t => .node hlo rfl (by grind)
    · exact .step fun n => .step fun types => .node hlo rfl (by grind)

instance (w : String) : Reading text (wordType r c w) (Fits text) where
  reads _ _ := by
    refine .start fun lo hlo => .ask fun _ => .ite (fun _ => .same) fun _ => ?_
    refine .ite (fun _ => .same) fun _ => .ite (fun _ => .last fun _ _ _ => Binds.toFits) fun _ => ?_
    refine .ite (fun _ => ?_) fun _ => .ite (fun _ => ?_) fun _ => ?_
    · refine .step fun _ => .step fun _ => .step fun _ => .step fun type => .node hlo rfl ?_
      grind
    · refine .step fun _ => .ask fun _ => .step fun _ => .ite (fun _ => ?_) fun _ => ?_
      · exact .step fun type => .node hlo rfl (by grind)
      · exact .node hlo rfl (by grind)
    · refine .ite (fun _ => .last fun _ _ _ => Binds.toFits) fun _ => ?_
      exact .ite (fun _ => .same) fun _ => .fail

instance : Reading text (primaryType r c) (Fits text) where
  reads _ _ := by
    refine .start fun lo hlo => .ask fun t => ?_
    split
    · exact .ite (fun _ => .same) fun _ => .same
    · exact .last fun _ _ _ => Binds.toFits
    · exact .last fun _ _ _ => Binds.toFits
    · exact .last fun _ _ _ => Binds.toFits
    · exact .same
    · refine .step fun _ => .ask fun _ => ?_
      split
      · exact .step fun _ => .node hlo rfl (by grind)
      · exact .step fun _ => .node hlo rfl (by grind)
      · exact .fail
    · refine .ask fun _ => .ite (fun _ => .same) fun _ => .step fun members => .node hlo rfl ?_
      grind
    · refine .step fun _ => .step fun items => .step fun _ => .ite (fun _ => ?_) fun _ => .fail
      refine .node hlo rfl fun e h => ?_
      have hitems := onAll_map.mpr h.1.2
      grind
    · refine .step fun _ => .step fun t => .step fun _ => .node hlo rfl ?_
      grind
    · exact .fail

theorem reads_bracketStep {t : Tree} (hlo : Boundary text lo) (hle : lo ≤ L)
    (ht : ∀ e, K e → Fits text lo t e) :
  Reads text K L (bracketStep r c lo t) (OnSome (Fits text) lo)
  := by
  refine .ask fun _ => .step fun _ => .ite (fun _ => ?_) fun _ => .pure (by simp)
  refine .step fun _ => .ite (fun _ => ?_) fun _ => .step fun key => .step fun _ => ?_
  all_goals
    refine .answer (.node hlo rfl ?_)
    grind

instance : Reading text (inferredType r c) (Fits text) where
  reads _ _ := by
    refine .start fun lo hlo => .step fun _ => .step fun n => ?_
    refine .bind (P := OnSome (Fits text) lo) (.attempt ?_) fun bound => .node hlo rfl (by grind)
    refine .step fun _ => .step fun t => .ask fun _ => .ite (fun _ => .pure (by simp)) fun _ => ?_
    exact .pure (by grind)

instance : Reading text (typeOperand r c) (Fits text) where
  reads _ _ := by
    refine .start fun lo hlo => .ask fun _ => .ask fun _ => .ask fun _ => .ite (fun _ => ?_)
      fun _ => ?_
    · exact .ask fun _ => .step fun _ => .step fun t => .node hlo rfl (by grind)
    · refine .ask fun _ => .ite (fun _ => .same) fun _ => ?_
      refine .step fun t => .iterate (fun _ => ?_) _ fun _ h => h.2
      exact reads_bracketStep hlo (Nat.le_refl _) fun _ h => h.2

instance (mark : String) (form : TypeForm) {operand : Parser Tree}
    [Reading text operand (Fits text)] :
    Reading text (operandList r mark form operand) (Fits text) where
  reads _ _ := by
    refine .start fun lo hlo => .step fun _ => .step fun first => .ask fun _ => .ite (fun _ => ?_)
      fun _ => .pure (by grind)
    refine .step fun rest => .node hlo rfl ?_
    grind

instance : Reading text (unionType r c) (Fits text) := by
  unfold unionType
  infer_instance

instance : Reading text (plainType r c) (Fits text) where
  reads _ _ := by
    refine .ask fun _ => .ask fun _ => .ask fun _ => .ask fun _ => .ask fun _ => .ask fun _ => ?_
    exact .ite (fun _ => .same) fun _ => .same

instance : Reading text (type r c) (Fits text) where
  reads _ _ := by
    refine .start fun lo hlo => .step fun t => .ask fun _ => .step fun _ => .ite (fun _ => ?_)
      fun _ => .pure (by grind)
    refine .step fun bound => .step fun _ => .step fun yes => .step fun _ => .step fun no => ?_
    refine .node hlo rfl ?_
    grind

end Prune.Source.Grammar
