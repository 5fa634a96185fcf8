import Prune.Proofs.Condition.Spelling
import Prune.Proofs.Source.Parentheses

/-!
# Conditions in parentheses

A condition is put in parentheses when it is read (`script`).  If it comes out as an expression in
parentheses, it is one expression itself, which reaches from the one parenthesis to the other
(`Encloses`, `exists_encloses_of_parse`).  That it does is not checked, so that a condition may
close the first parenthesis early and open another one (`exists_parse_of_not_encloses`).
-/

namespace Prune.Condition

open Source Source.Parser Source.Grammar

/-- The script that a condition is read as. -/
def script (text : String) : String :=
  "(" ++ text ++ "\n)"

/-- The context of a condition. -/
def context : Context :=
  { typed := false, markup := false }

/-- The state behind the parenthesis that a condition is put in. -/
def inside (text : String) : State :=
  let s := Parser.start false (script text).toList
  s.after s.tok

/-- The rules for what stands between the parentheses, which themselves take five units of fuel. -/
def innerRules (text : String) : Rules :=
  rules (fuelFor (script text).toList - 5)

/-- Whether a state is in front of the parenthesis that ends a text, and no rule was broken. -/
structure Closing (s : State) : Prop where
  kind : s.tok.kind = .punct ")"
  rest : s.tok.rest = []
  flawed : s.flawed = false

/-- Whether a condition is one expression, from behind the parenthesis that it is put in up to the
one that ends the text. -/
def Encloses (text : String) (e : Tree) : Prop :=
  ∃ s, expression (innerRules text) context (inside text) = .ok e s ∧ Closing s

/-- Whether a comma stands behind the last of the expressions that a condition is. -/
def endsInComma (text : String) : Bool :=
  let r := innerRules text
  match commaList ")" (r.assignment context) r.fuel (inside text) with
  | .ok _ s => s.prevKind == .punct ","
  | .error _ _ => false

theorem toList_script (text : String) :
  (script text).toList = '(' :: text.toList ++ ['\n', ')']
  := by
  simp [script]

theorem ofTree_eq_of_forms {es : List Tree} {e f : Tree} (he : Forms es e) (hf : Forms es f) :
  Expr.ofTree e = Expr.ofTree f
  := by
  cases he with
  | one => cases hf with
    | one => rfl
  | many => cases hf with
    | many => rw [Expr.ofTree, Expr.ofTree]

/-- Only the node of an expression in parentheses spells out one. -/
theorem isParen_of_ofTree {e : Tree} {x : Expr} (h : Expr.ofTree e = .paren x) :
  e.IsParen ∧ ∃ f, e.parts = [f] ∧ Expr.ofTree f = x
  := by
  unfold Expr.ofTree at h
  split at h
  case h_8 f => exact ⟨rfl, f, rfl, Expr.paren.inj h⟩
  case h_9 | h_10 =>
    split at h
    · cases h
    · cases h
  all_goals cases h

theorem exists_statement_of_parse {text : String} {x : Expr} (h : parse text = .ok x) :
  ∃ span e, parseScript (script text) = some [.node (.statement .expression) span [e]] ∧
    Expr.ofTree e = x
  := by
  unfold parse at h
  split at h
  · cases h
  · split at h
    · cases h
    · next span e hscript => exact ⟨span, e, hscript, Except.ok.inj h⟩
    · cases h

theorem sound_expression {text : List Char} {n : Nat} {c : Context} {s t : State} {e : Tree}
    (hs : s.Sound text) (h : (rules n).expression c s = .ok e t) :
  t.Sound text
  := by
  have hland := ((reads_rules n).expression c).reads (fun _ => True) 0 s trivial hs
    (Nat.zero_le _) fun _ _ => trivial
  rw [h] at hland
  exact hland.1

/-- A condition that is read as an expression in parentheses is a list of expressions with commas
between them, from behind the parenthesis that it is put in up to the one that ends the text. -/
theorem exists_list_of_parse {text : String} {x : Expr} (h : parse text = .ok (.paren x)) :
  ∃ items s f, commaList ")" ((innerRules text).assignment context) (innerRules text).fuel
      (inside text) = .ok items s ∧
    Closing s ∧ Forms items f ∧ Expr.ofTree f = x
  := by
  obtain ⟨span, e, hscript, he⟩ := exists_statement_of_parse h
  obtain ⟨hparen, f, hparts, hf⟩ := isParen_of_ofTree he
  have hmark : Text.withoutMark (script text).toList = (script text).toList := by
    rw [toList_script]
    rfl
  obtain ⟨t, hstatement, hstop, hgap, hflawed⟩ := statement_of_parseScript hscript hmark
  obtain ⟨n, hn⟩ : ∃ n, fuelFor (script text).toList = n + 5 :=
    ⟨8 * (script text).toList.length + 59, rfl⟩
  have hopen : (Parser.start false (script text).toList).tok.isPunct "(" = true := by
    rw [toList_script]
    rfl
  have hbare : Bare context := ⟨rfl, rfl, rfl, rfl⟩
  rw [hn] at hstatement
  obtain ⟨u, hexpression, hend⟩ := expression_of_statement hbare hopen hparen hflawed hstatement
  have hu := flawed_of_endStatement hend hflawed
  have hsound := sound_expression (sound_start false _) hexpression
  rw [toList_script] at hsound
  obtain ⟨items, s, g, hitems, hclose, rfl, hg, hforms⟩ :=
    exists_items_of_parenOrArrow hbare hparen hu
      (parenOrArrow_of_expression hbare hopen hparen hexpression)
  have hinner : innerRules text = rules n := by
    rw [innerRules, hn, Nat.add_sub_cancel]
  obtain rfl : f = g := by
    rw [hparts] at hg
    exact (List.cons.inj hg).1
  have hlast := rest_eq_nil_of_endStatement hsound hend hstop hgap
  rw [hinner]
  exact ⟨items, s, f, hitems,
    ⟨Token.kind_of_isPunct hclose, hlast, (Bool.or_eq_false_iff.mp hu).1⟩, hforms, hf⟩

/-- A condition that is read as an expression in parentheses is one expression, which reaches from
the parenthesis that it is put in to the one that ends the text, unless a comma stands behind it. -/
theorem exists_encloses_of_parse {text : String} {x : Expr} (h : parse text = .ok (.paren x))
    (hcomma : endsInComma text = false) :
  ∃ e, Encloses text e ∧ Expr.ofTree e = x
  := by
  obtain ⟨items, s, f, hitems, hclosing, hforms, hf⟩ := exists_list_of_parse h
  have hlast : s.prevKind ≠ .punct "," := by
    intro hkind
    simp [endsInComma, hitems, hkind] at hcomma
  have hne : items ≠ [] := by
    rintro rfl
    cases hforms
  obtain ⟨e, hread, hforms'⟩ := expression_of_commaList hne hitems hlast
  use e
  constructor
  · exact ⟨s, hread, hclosing⟩
  · rw [ofTree_eq_of_forms hforms' hforms, hf]

/-- An expression that opens and closes parentheses of its own. -/
theorem exists_encloses_of_parse_or :
  ∃ x e, parse "(A || B)" = .ok (.paren x) ∧ Encloses "(A || B)" e ∧ Expr.ofTree e = x
  := by
  let a : Formula.Name :=
    ⟨'A', [], by decide, List.forall_mem_singleton.mpr (by decide), by decide, by decide⟩
  let b : Formula.Name :=
    ⟨'B', [], by decide, List.forall_mem_singleton.mpr (by decide), by decide, by decide⟩
  have hspelled : Formula.Spelled (.or (.name a) (.name b)) "(A || B)".toList :=
    Formula.spelled_render _
  obtain ⟨e, he⟩ := exists_encloses_of_parse hspelled.parse_eq (by decide +kernel)
  exact ⟨_, e, hspelled.parse_eq, he⟩

/-- Whether an expression stands in parentheses in two parts with an operator between them. -/
def isParted : Expr → Bool
  | .binary .or (.paren _) (.paren _) => true
  | _ => false

theorem exists_eq_of_isParted {z : Expr} (h : isParted z = true) :
  ∃ x y, z = .binary .or (.paren x) (.paren y)
  := by
  unfold isParted at h
  split at h
  · next x y => exact ⟨x, y, rfl⟩
  · contradiction

/-- Whether the text ends with the token behind the first expression of a condition. -/
def endsAtLast (text : String) : Bool :=
  match expression (innerRules text) context (inside text) with
  | .ok _ s => s.tok.rest.isEmpty
  | .error _ _ => false

theorem endsAtLast_of_encloses {text : String} {e : Tree} (h : Encloses text e) :
  endsAtLast text = true
  := by
  obtain ⟨s, hread, hs⟩ := h
  unfold endsAtLast
  rw [hread]
  exact List.isEmpty_iff.mpr hs.rest

/-- A condition that closes the parenthesis which it is put in and opens another one is read, too,
though it is no expression. -/
theorem exists_parse_of_not_encloses :
  (∃ x y, parse "1) || (2" = .ok (.binary .or (.paren x) (.paren y))) ∧
    ∀ e, ¬Encloses "1) || (2" e
  := by
  constructor
  · have h : (parse "1) || (2").toOption.any isParted = true := by decide +kernel
    cases hparse : parse "1) || (2" with
    | error cause => simp [hparse, Except.toOption] at h
    | ok z =>
        rw [hparse] at h
        obtain ⟨x, y, rfl⟩ := exists_eq_of_isParted h
        exact ⟨x, y, rfl⟩
  · intro e hencloses
    have h : endsAtLast "1) || (2" = false := by decide +kernel
    rw [endsAtLast_of_encloses hencloses] at h
    contradiction

end Prune.Condition
