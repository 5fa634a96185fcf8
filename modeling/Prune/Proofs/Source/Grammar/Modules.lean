import Prune.Proofs.Source.Grammar.Statements
import Prune.Source.Grammar.Modules

/-!
# Layout of imports and exports

The items of a module are laid out as they were read.  The decorators of an exported class may stand
in front of the export, and so in front of the class that they belong to.
-/

namespace Prune.Source.Grammar

open Prune.Source.Parser Text

variable {text : List Char} {r : Rules} {c : Context} [Rules.Reads text r]
  {K : Extent → Prop} {L lo : Nat}

/-! ### Names -/

instance : Reading text moduleName fun L _ e => L ≤ e.stop :=
  ⟨fun _ _ => .ask fun _ => .ite (fun _ => .last fun _ _ _ => id) fun _ => .fail⟩

instance : Reading text exportName fun L _ e => L ≤ e.stop :=
  ⟨fun _ _ => .ask fun _ => .ask fun _ => .ite (fun _ => .last fun _ _ _ => id) fun _ => .fail⟩

instance : Reading text (importedBinding c) fun _ _ _ => True :=
  ⟨fun _ _ => .step fun _ => .pure fun _ _ => trivial⟩

instance : Reading text (moduleAttributes? r c) (OnAll (Fits text)) where
  reads _ _ := by
    refine .ask fun _ => .step fun _ => .step fun _ => .ite (fun _ => .step fun e => .pure ?_) fun _ => ?_
    · grind
    · exact .pure (by simp)

instance : Reading text (fromClause r c) fun L ts e => OnAll (Fits text) L ts e ∧ L ≤ e.stop :=
  ⟨fun _ _ => .step fun _ => .step fun _ => .step fun _ => .step fun _ => .pure (by grind)⟩

instance (word : Parser Unit) {P : Nat → Unit → Extent → Prop} [Reading text word P] :
    Reading text (typeAsTail word) fun _ _ _ => True where
  reads _ _ := by
    refine .ask fun _ => .ite (fun _ => .ask fun _ => .step fun _ => .ask fun _ => ?_) fun _ => ?_
    · exact .ite (fun _ => .last fun _ _ _ _ => trivial) fun _ => .pure fun _ _ => trivial
    · exact .pure fun _ _ => trivial

instance : Reading text exportSpecifier (Fits text) where
  reads _ _ := by
    refine .start fun lo hlo => .ask fun start => .ask fun _ => .step fun _ => .ask fun _ => ?_
    refine .ask fun _ => .step fun _ => ?_
    refine .bind (g := State.extent) (P := fun _ _ => True) (.choose ?_ ?_) fun _ => ?_
    · exact fun _ => .last fun _ _ _ _ => trivial
    · refine fun _ => .step fun _ => .ite (fun _ => ?_) fun _ => .pure fun _ _ => trivial
      exact .last fun _ _ _ _ => trivial
    · refine .ask fun words => .node hlo rfl ?_
      grind

instance : Reading text (importSpecifier c) (Fits text) where
  reads _ _ := by
    refine .start fun lo hlo => .ask fun start => .ask fun _ => .ask fun first => .step fun _ => ?_
    refine .ask fun second => .ask fun _ => .ask fun _ => .step fun _ => ?_
    refine .bind (g := State.extent) (P := fun _ _ => True) (.choose ?_ ?_) fun _ => ?_
    · exact fun _ => .last fun _ _ _ _ => trivial
    · refine fun _ => .step fun _ => .ite (fun _ => ?_) fun _ => ?_
      all_goals exact .last fun _ _ _ _ => trivial
    · refine .ask fun words => .node hlo rfl ?_
      grind

instance (specifier : Parser Tree) [Reading text specifier (Fits text)] :
    Reading text (specifiers r specifier) fun L ts e => OnAll (Fits text) L ts e ∧ L ≤ e.stop :=
  ⟨fun _ _ => .step fun _ => .step fun _ => .step fun _ => .pure (by grind)⟩

/-! ### Imports -/

section

variable {before : State}

omit [Rules.Reads text r] in
theorem reads_importEquals (hlo : Boundary text lo) (hle : lo ≤ L) :
  Reads text K L (importEquals r c before lo) (Fits text lo)
  := by
  refine .ask fun u => .ask fun _ => .ite (fun _ => ?_) fun _ => .step fun n => .step fun _ => ?_
  · refine .step fun _ => .step fun _ => .step fun _ => .step fun _ => .step fun _ => ?_
    refine .ask fun words => .node hlo rfl ?_
    grind
  · refine .ask fun words => .node hlo rfl ?_
    grind

instance : Reading text (importedNames r c) (OnAll (Fits text)) where
  reads _ _ := by
    refine .start fun lo hlo => .ask fun start => .step fun _ => .ite (fun _ => ?_) fun _ => ?_
    · refine .step fun _ => .step fun _ => .ask fun words => ?_
      refine .bind (.node hlo rfl (by grind)) fun item => .pure ?_
      grind
    · refine .ask fun _ => .ite (fun _ => .last fun _ _ _ h => h.1) fun _ => .pure (by simp)

theorem reads_importFrom {front : List Tree} (hlo : Boundary text lo) (hle : lo ≤ L)
    (hfront : ∀ e, K e → OnAll (Fits text) lo front e) :
  Reads text K L (importFrom r c before lo front) (Fits text lo)
  := by
  refine .step fun items => .step fun attributes => .ask fun words => .node hlo rfl fun e h => ?_
  have hall : OnAll (Fits text) lo (front ++ items) e := by grind
  grind

theorem reads_importNamed (hlo : Boundary text lo) (hle : lo ≤ L) :
  Reads text K L (importNamed r c before lo) (Fits text lo)
  := by
  refine .here fun start hstart hle' => .ask fun t => .step fun n => .step fun _ => ?_
  have hle := Nat.le_trans hle hle'
  refine .ite (fun _ => reads_importEquals hlo hle) fun _ => ?_
  refine .bind (.node hstart rfl (by grind)) fun first => .ask fun _ => .ite (fun _ => ?_) fun _ => ?_
  · refine reads_importFrom hlo hle ?_
    grind
  · refine .step fun _ => reads_importFrom hlo hle ?_
    grind

instance : Reading text (importQualifier? c) fun _ _ _ => True where
  reads _ _ := by
    refine .ask fun t => .ask fun u => .ask fun v => ?_
    exact .step fun _ => .pure fun _ _ => trivial

theorem reads_importItem (hlo : Boundary text lo) (hle : lo ≤ L) :
  Reads text K L (importItem r c lo) (Fits text lo)
  := by
  refine .ask fun start => .ask fun u => .ite (fun _ => reads_importStatement hlo hle) fun _ => ?_
  refine .step fun _ => .ask fun _ => .ite (fun _ => ?_) fun _ => .step fun _ => .ask fun _ => ?_
  · refine .step fun _ => .step fun attributes => .step fun _ => .ask fun words => ?_
    refine .node hlo rfl fun e h => ?_
    have hnone : Holds text lo (.series .list []) e :=
      holds_series .list (onAll_nil.mpr trivial) (Nat.le_refl _)
    grind
  · exact .ite (fun _ => reads_importNamed hlo hle) fun _ => reads_importFrom hlo hle (by simp)

/-! ### Exports -/

variable {front : List Tree} {words : List String}

theorem reads_lateDecorators (hfront : ∀ e, K e → OnAll (Decorates text) 0 front e) :
  Reads text K L (lateDecorators r c front) (OnAll (Decorates text) 0)
  := by
  refine .step fun late => .step fun _ => .pure fun e h => ?_
  exact onAll_append.mpr ⟨hfront e h.1.1, Lowers.lower h.1.2 (Nat.zero_le _)⟩

/-- An export around a declaration. -/
theorem reads_exported {start : Nat} {p : Parser Tree} (hlo : Boundary text lo) (hle : lo ≤ start)
    (hp : Reads text K L p (Fits text start)) :
  Reads text K L (do
    let d ← p
    node (.declaration (.exports words)) lo [d]) (Fits text lo)
  := by
  refine .bind hp fun d => .node hlo rfl ?_
  grind

theorem reads_exportDefault (hlo : Boundary text lo) (hle : lo ≤ L)
    (hfront : ∀ e, K e → OnAll (Decorates text) 0 front e) :
  Reads text K L (exportDefault r c words lo front) (Fits text lo)
  := by
  refine .here fun start hstart hle' => .bind (reads_lateDecorators hfront) fun front => ?_
  refine .ask fun u => .ask fun _ => .step fun _ => .ask fun t => .ask fun u => ?_
  have hle := Nat.le_trans hle hle'
  refine .ite (fun _ => .step fun _ => reads_exported hlo hle ?_) fun _ => ?_
  · exact reads_decoratedClass hstart (Nat.le_refl _) fun e h => h.1.1.2
  refine .ite (fun _ => reads_exported hlo hle ?_) fun _ => ?_
  · exact reads_decoratedClass hstart (Nat.le_refl _) fun e h => h.1.2
  refine .ite (fun _ => .step fun _ => reads_exported hlo hle ?_) fun _ => ?_
  · exact reads_interface hstart (Nat.le_refl _)
  refine .ite (fun _ => reads_exported hlo hle ?_) fun _ => ?_
  · exact reads_functionDeclaration hstart (Nat.le_refl _)
  refine .ite (fun _ => .step fun _ => reads_exported hlo hle ?_) fun _ => ?_
  · exact reads_functionDeclaration hstart (Nat.le_refl _)
  refine .step fun e => .step fun _ => .node hlo rfl ?_
  grind

theorem reads_exportAll (hlo : Boundary text lo) (hle : lo ≤ L) :
  Reads text K L (exportAll r c before lo) (Fits text lo)
  := by
  refine .here fun start hstart hle' => .ask fun own => .step fun _ => .step fun _ => ?_
  have hle := Nat.le_trans hle hle'
  refine .ite (fun _ => .step fun _ => .ask fun names => ?_) fun _ => .step fun attributes => ?_
  · refine .bind (.node hstart rfl (by grind)) fun item => .step fun attributes => ?_
    refine .ask fun words => .node hlo rfl fun e h => ?_
    have hitem : Holds text lo (.series .list [item]) e :=
      holds_series .list (onAll_cons.mpr ⟨h.1.2, by simp⟩) hle
    grind
  · refine .ask fun words => .node hlo rfl ?_
    grind

theorem reads_exportNames (hlo : Boundary text lo) (hle : lo ≤ L) :
  Reads text K L (exportNames r c before lo) (Fits text lo)
  := by
  refine .step fun items => .ask fun _ => ?_
  refine .bind (g := State.extent) (P := OnAll (Fits text) lo) (.choose ?_ ?_) fun attributes => ?_
  · exact fun _ => .last fun _ _ _ h => onAll_fits_lower h.1 hle
  · exact fun _ => .step fun _ => .pure (by simp)
  · refine .ask fun words => .node hlo rfl ?_
    grind

theorem reads_exportedDeclaration (hfront : ∀ e, K e → OnAll (Decorates text) 0 front e) :
  Reads text K L (exportedDeclaration? r c front) (OnSome (Fits text) L)
  := by
  refine .start fun lo hlo => .ask fun t => .ask fun u => ?_
  have hle := Nat.le_refl lo
  refine .ite (fun _ => .answer (reads_decoratedClass hlo hle hfront)) fun _ => ?_
  refine .ite (fun _ => .step fun _ => .answer (reads_functionDeclaration hlo hle)) fun _ => ?_
  refine .ite (fun _ => .answer (reads_functionDeclaration hlo hle)) fun _ => ?_
  refine .ite (fun _ => .step fun _ => .step fun _ => .answer (reads_enumeration hlo hle)) fun _ => ?_
  exact .ite (fun _ => .answer (reads_variableList hlo hle)) fun _ => .pure (by simp)

theorem reads_typedExport (hlo : Boundary text lo) (hle : lo ≤ L)
    (hfront : ∀ e, K e → OnAll (Decorates text) 0 front e) :
  Reads text K L (typedExport? r c before lo front) (OnSome (Fits text) lo)
  := by
  refine .here fun start hstart hle' => .step fun _ => .ask fun words => ?_
  have hle := Nat.le_trans hle hle'
  refine .bind (g := State.extent) (P := OnSome (Fits text) start) (.choose ?_ ?_) fun ambient => ?_
  · exact fun _ => reads_ambient hstart (Nat.le_refl _) fun e h => hfront e h.1
  · exact fun _ => .pure (by simp)
  split
  · refine .answer (.node hlo rfl ?_)
    grind
  · refine .bind (P := OnSome (Fits text) start) (.attempt ?_) fun worded => ?_
    · exact reads_wordedFrom hstart (Nat.le_refl _) fun e h => hfront e h.1.1
    split
    · refine .answer (.node hlo rfl ?_)
      grind
    · refine .step fun _ => .ite (fun _ => ?_) fun _ => .step fun _ => .ite (fun _ => ?_) fun _ => ?_
      · refine .ask fun u => .step fun _ => .step fun _ => .step fun _ => ?_
        exact .answer (reads_importEquals hlo hle)
      · refine .ask fun words => .step fun e => .step fun _ => .answer (.node hlo rfl ?_)
        grind
      · refine .step fun _ => .ite (fun _ => ?_) fun _ => .pure (by simp)
        refine .step fun _ => .step fun _ => .step fun _ => .ask fun words => ?_
        refine .answer (.node hlo rfl ?_)
        grind

theorem reads_exportItem (hlo : Boundary text lo) (hle : lo ≤ L)
    (hfront : ∀ e, K e → OnAll (Decorates text) 0 front e) :
  Reads text K L (exportItem r c lo front) (Fits text lo)
  := by
  refine .ask fun before => .step fun _ => ?_
  refine .bind (reads_typedExport hlo hle fun e h => hfront e h.1) fun typed => ?_
  split
  · exact .pure (by grind)
  · refine .ask fun t => .ask fun u => .ite (fun _ => .step fun _ => .ask fun _ => ?_) fun _ => ?_
    · exact .ite (fun _ => reads_exportAll hlo hle) fun _ => reads_exportNames hlo hle
    · refine .step fun _ => .ite (fun _ => .ask fun words => reads_exportDefault hlo hle ?_) fun _ => ?_
      · exact fun e h => hfront e h.1.1.1
      · refine .ask fun words => .bind (reads_lateDecorators fun e h => hfront e h.1.1.1) fun front => ?_
        refine .bind (reads_exportedDeclaration fun e h => h.2) fun d? => ?_
        split
        · refine .node hlo rfl ?_
          grind
        · refine .ask fun _ => ?_
          exact .ite (fun _ => reads_exportAll hlo hle) fun _ => reads_exportNames hlo hle

end

instance : Reading text (item r c) (Fits text) where
  reads _ _ := by
    refine .start fun lo hlo => .step fun front => .here fun start hstart hle => .ask fun _ => ?_
    have hfront (e : Extent) (h : OnAll (Decorates text) lo front e) :
        OnAll (Decorates text) 0 front e :=
      Lowers.lower h (Nat.zero_le _)
    refine .ite (fun _ => .lower (reads_importItem hstart (Nat.le_refl _)) hle) fun _ => ?_
    refine .ask fun _ => .ite (fun _ => .lower (reads_exportItem hstart (Nat.le_refl _) ?_) hle) fun _ => ?_
    · exact fun e h => hfront e h.2
    · exact reads_statementFrom hlo hle fun e h => h.2

end Prune.Source.Grammar
