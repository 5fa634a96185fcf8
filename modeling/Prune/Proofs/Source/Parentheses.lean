import Prune.Proofs.Source.Operands
import Prune.Proofs.Source.Soundness
import Prune.Proofs.Source.Successes

/-!
# Expressions in parentheses

What was read when a rule of the grammar gives an expression in parentheses.  Whatever goes on
behind an expression makes another one of it, which does not stand in parentheses itself, or reads
nothing (`Parser.Extends`).  So the parenthesis that a rule gives was given as it is by the rule
that it starts with (`Parser.ok_of_extends`), from expressions (`assignment_of_expression`) down to
what opens with the parenthesis (`parenOrArrow_of_expression`), which holds expressions with commas
between them and ends with the parenthesis that closes it (`exists_items_of_parenOrArrow`).  Where
such an expression is all of a script that ends in a line feed and a parenthesis, that one closes
it, for no comment can hide it (`rest_eq_nil_of_endStatement`).
-/

namespace Prune.Source

open Prune.Source.Parser Text

/-- Whether an expression is one in parentheses. -/
def Tree.IsParen (e : Tree) : Prop :=
  e.kind? = some .paren

namespace Parser

variable {α : Type} {p : Parser α} {s t : State} {e : Tree}

/-! ### What goes on behind an expression -/

/-- Whether a parser gives no expression in parentheses. -/
abbrev Avoids (p : Parser Tree) : Prop :=
  Gives (fun e => ¬e.IsParen) p

theorem not_isParen_node {kind : Kind} {span : Span} {parts : List Tree} (h : kind ≠ .paren) :
  ¬(Tree.node kind span parts).IsParen
  := by
  intro hparen
  exact h (Option.some.inj hparen)

theorem Gives.node {kind : Kind} {lo : Nat} {parts : List Tree} (h : kind ≠ .paren) :
  Avoids (Parser.node kind lo parts)
  := by
  rintro s _ t ⟨⟩
  exact not_isParen_node h

/-- Whether a parser that goes on behind an expression gives no expression in parentheses but this
one, for which it has read nothing. -/
def Extends (e : Tree) (p : Parser Tree) : Prop :=
  ∀ s f t, p s = .ok f t → f.IsParen → f = e ∧ t = s

theorem Extends.of_avoids {p : Parser Tree} (h : Avoids p) :
  Extends e p
  := by
  intro s f t hf hparen
  exact absurd hparen (h s f t hf)

theorem Extends.avoids {p : Parser Tree} (h : Extends e p) (he : ¬e.IsParen) :
  Avoids p
  := by
  intro s f t hf hparen
  obtain ⟨rfl, -⟩ := h s f t hf hparen
  exact he hparen

theorem Extends.pure :
  Extends e (Pure.pure e)
  := by
  rintro s _ t ⟨⟩ _
  exact ⟨rfl, rfl⟩

theorem Extends.ask {k : α → Parser Tree} [hp : Quiet p] (hk : ∀ a, Extends e (k a)) :
  Extends e (p >>= k)
  := by
  intro s f t h hparen
  obtain ⟨a, ha⟩ := hp.quiet s
  rw [bind_ok ha] at h
  exact hk a s f t h hparen

theorem Extends.ite {c : Prop} [Decidable c] {p q : Parser Tree} (hp : Extends e p)
    (hq : Extends e q) :
  Extends e (if c then p else q)
  := by
  split
  · exact hp
  · exact hq

/-- What a parser that goes on behind a mark gives is no expression in parentheses, if the mark
comes next. -/
theorem Extends.eat {mark : String} {k : Bool → Parser Tree} (htrue : Avoids (k true))
    (hfalse : Extends e (k false)) :
  Extends e (Parser.eat mark >>= k)
  := by
  intro s f t h hparen
  obtain ⟨b, u, heat, hk⟩ := bind_eq_ok.mp h
  obtain ⟨-, rfl⟩ := eat_eq_ok.mp heat
  cases b with
  | true => exact absurd hparen (htrue _ f t hk)
  | false => exact hfalse s f t hk hparen

/-- An expression in parentheses was given by the parser in front of one that extends what it gives.
-/
theorem ok_of_extends {p : Parser Tree} {k : Tree → Parser Tree} (hparen : e.IsParen)
    (hk : ∀ a, Extends a (k a)) (h : (p >>= k) s = .ok e t) :
  p s = .ok e t
  := by
  obtain ⟨a, u, ha, he⟩ := bind_eq_ok.mp h
  obtain ⟨rfl, rfl⟩ := hk a u e t he hparen
  exact ha

theorem ok_of_recover {p : Parser Tree} {k : Option Tree → Parser Tree} (hparen : e.IsParen)
    (hsome : ∀ a, Extends a (k (some a))) (hnone : Avoids (k none))
    (h : (recover p >>= k) s = .ok e t) :
  p s = .ok e t
  := by
  obtain ⟨found, u, hu, he⟩ := bind_eq_ok.mp h
  unfold recover at hu
  cases hp : p s with
  | ok a v =>
      simp only [hp, EStateM.Result.ok.injEq] at hu
      obtain ⟨rfl, rfl⟩ := hu
      obtain ⟨rfl, rfl⟩ := hsome a v e t he hparen
      rfl
  | error _ v =>
      simp only [hp, EStateM.Result.ok.injEq] at hu
      obtain ⟨rfl, rfl⟩ := hu
      exact absurd hparen (hnone v e t he)

/-- What is made of an expression that does not stand in parentheses does not, either. -/
theorem avoids_of_extends {p : Parser Tree} {k : Tree → Parser Tree} (hp : Avoids p)
    (hk : ∀ a, Extends a (k a)) :
  Avoids (p >>= k)
  := by
  intro s e t h hparen
  exact hp s e t (ok_of_extends hparen hk h) hparen

/-- Whether a step from an expression gives one that does not stand in parentheses, or reads
nothing. -/
def Steps (p : Parser (Option Tree)) : Prop :=
  ∀ s x t, p s = .ok x t → (x = none ∧ t = s) ∨ ∃ f, x = some f ∧ ¬f.IsParen

theorem Steps.stop :
  Steps (Pure.pure none)
  := by
  rintro s _ t ⟨⟩
  exact .inl ⟨rfl, rfl⟩

/-- A step that always gives an expression, which does not stand in parentheses. -/
theorem Steps.of_gives {p : Parser (Option Tree)}
    (hp : Gives (fun x => ∃ f, x = some f ∧ ¬f.IsParen) p) :
  Steps p
  := fun s x t h => .inr (hp s x t h)

theorem Gives.some {p : Parser Tree} (hp : Avoids p) :
  Gives (fun x => ∃ f, x = some f ∧ ¬f.IsParen) (do return some (← p))
  := hp.bind fun f hf => .pure ⟨f, rfl, hf⟩

theorem Steps.ask {k : α → Parser (Option Tree)} [hp : Quiet p] (hk : ∀ a, Steps (k a)) :
  Steps (p >>= k)
  := by
  intro s x t h
  obtain ⟨a, ha⟩ := hp.quiet s
  rw [bind_ok ha] at h
  exact hk a s x t h

theorem Steps.ite {c : Prop} [Decidable c] {p q : Parser (Option Tree)} (hp : Steps p)
    (hq : Steps q) :
  Steps (if c then p else q)
  := by
  split
  · exact hp
  · exact hq

theorem extends_iterate {step : Tree → Parser (Option Tree)} (hstep : ∀ a, Steps (step a))
    (n : Nat) :
  Extends e (iterate step n e)
  := by
  induction n generalizing e with
  | zero => exact .of_avoids .fail
  | succ n ih =>
      intro s f t h hparen
      obtain ⟨x, u, hx, hf⟩ := bind_eq_ok.mp h
      obtain ⟨rfl, rfl⟩ | ⟨g, rfl, hg⟩ := hstep e s x u hx
      · exact Extends.pure u f t hf hparen
      · obtain ⟨rfl, -⟩ := ih u f t hf hparen
        contradiction

end Parser

namespace Grammar

variable {r : Rules} {c : Context} {s t : State} {e : Tree} {arrow : Bool}

/-! ### Operators, members and calls -/

theorem avoids_taggedTemplate {lo : Nat} {types : List Tree} :
  Avoids (taggedTemplate r c lo e types)
  := .last fun _ => .last fun _ => .node (by simp)

theorem avoids_callTail {lo : Nat} {link : Link} {types : List Tree} :
  Avoids (callTail r c lo link e types)
  := .last fun _ => .node (by simp)

theorem avoids_indexTail {lo : Nat} {link : Link} :
  Avoids (indexTail r c lo link e)
  := .last fun _ => .last fun _ => .last fun _ => .node (by simp)

theorem avoids_optionalSubscript {indexes : Bool} {lo : Nat} :
  Avoids (optionalSubscript r c indexes lo e)
  := by
  unfold optionalSubscript
  refine .last fun _ => .ite avoids_indexTail (.last fun _ => .ite avoids_callTail ?_)
  refine .last fun _ => .ite (.last fun _ => avoids_callTail) ?_
  exact .last fun _ => .node (by simp)

/-- Where there are no types, whatever hangs on an expression is a member, a call or a template. -/
theorem steps_subscriptStep (hc : Bare c) (calls indexes : Bool) (lo : Nat) (e : Tree) :
  Steps (subscriptStep r c calls indexes lo e)
  := by
  simp only [subscriptStep, hc.typed, Bool.false_and, attemptIf, choose, Bool.false_eq_true,
    if_false, pure_bind]
  refine .ask fun t => ?_
  split
  · exact .stop
  · exact .of_gives (.last fun _ => .some avoids_optionalSubscript)
  · exact .ite (.of_gives (.some avoids_indexTail)) .stop
  · exact .ite (.of_gives (.some avoids_callTail)) .stop
  · exact .of_gives (.last fun _ => .last fun _ => .some (.node (by simp)))
  · exact .of_gives (.some avoids_taggedTemplate)
  · exact .stop

theorem extends_subscripts (hc : Bare c) {calls indexes : Bool} {lo : Nat} :
  Extends e (subscripts r c calls indexes lo e)
  := extends_iterate (steps_subscriptStep hc calls indexes lo) _

theorem extends_binaryFrom (hc : Bare c) (n least : Nat) :
  Extends e (binaryFrom r c n e least)
  := by
  induction n generalizing e with
  | zero => exact .of_avoids .fail
  | succ n ih =>
      simp only [binaryFrom, hc.typed, Bool.false_and, Bool.false_eq_true, if_false]
      refine .ask fun _ => .ask fun _ => .ask fun _ => .ask fun found => ?_
      cases found with
      | none => exact .pure
      | some found =>
          refine .ite .pure (.of_avoids ?_)
          refine .last fun _ => .last fun _ => .last fun _ => .last fun _ => .last fun _ => ?_
          exact avoids_of_extends (.node (by simp)) fun _ => ih

theorem extends_conditionalFrom {lo : Nat} :
  Extends e (conditionalFrom r c lo e)
  := .eat (.last fun _ => .last fun _ => .last fun _ => .node (by simp)) .pure

instance : Quiet assignOperator? := by unfold assignOperator?; infer_instance

theorem extends_assignFrom {lo : Nat} :
  Extends e (assignFrom r c lo e)
  := by
  refine .ask fun found => ?_
  cases found with
  | none => exact .pure
  | some found => exact .of_avoids (.last fun _ => .last fun _ => .last fun _ => .node (by simp))

/-! ### What opens with a parenthesis -/

theorem isWord_of_isPunct {tok : Token} {mark : String} (h : tok.isPunct mark = true)
    (word : String) :
  tok.isWord word = false
  := by
  simp [Token.isWord, Token.keyword?, Token.kind_of_isPunct h]

theorem assignment_of_expression (hparen : e.IsParen) (h : expression r c s = .ok e t) :
  r.assignment c s = .ok e t
  := by
  rw [expression, here_bind] at h
  refine ok_of_extends hparen (fun a => ?_) h
  exact .ask fun _ => .ite (.of_avoids (.last fun _ => .node (by simp))) .pure

theorem conditional_of_assignment (hc : Bare c) (hs : s.tok.isPunct "(" = true)
    (hparen : e.IsParen) (h : assignment r c s = .ok e t) :
  conditional r c true s = .ok e t
  := by
  have heq : assignment r c s = plainAssignment r c s := by
    simp only [assignment, hc.typed, attemptIf, choose, Bool.false_and, Bool.false_eq_true,
      if_false, pure_bind]
    rfl
  simp only [heq, plainAssignment, here_bind, hc.inGenerator, Bool.false_and, Bool.false_eq_true,
    if_false, atWord_bind, peek_bind, hs, Bool.or_true] at h
  exact ok_of_extends hparen (fun a => .ite .pure extends_assignFrom) h

theorem binary_of_conditional (hparen : e.IsParen) (h : conditional r c arrow s = .ok e t) :
  binary r c arrow s = .ok e t
  := by
  rw [conditional, here_bind] at h
  exact ok_of_extends hparen (fun a => .ite .pure extends_conditionalFrom) h

theorem unary_of_binary (hc : Bare c) (hparen : e.IsParen) (h : binary r c arrow s = .ok e t) :
  r.unary c arrow s = .ok e t
  := by
  rw [binary, here_bind] at h
  refine ok_of_recover hparen (fun a => .ite .pure (extends_binaryFrom hc _ _)) ?_ h
  refine .last fun found => ?_
  cases found with
  | none => exact .fail
  | some found =>
      exact .last fun _ => (extends_binaryFrom hc _ _).avoids (not_isParen_node (by simp))

theorem leftHand_of_unary (hc : Bare c) (hs : s.tok.isPunct "(" = true) (hparen : e.IsParen)
    (h : unary r c arrow s = .ok e t) :
  r.leftHand c arrow s = .ok e t
  := by
  have hkind := Token.kind_of_isPunct hs
  have hupdate : s.tok.isAnyPunct ["++", "--"] = false := by simp [Token.isAnyPunct, hkind]
  have hprefix : prefixOperator? s = .ok none s := by
    simp only [prefixOperator?, peek_bind, hkind, prefixOps]
    rfl
  simp only [unary, here_bind, hc.typed, Bool.false_and, Bool.false_eq_true, if_false, at_bind,
    atAny_bind, hupdate, bind_ok hprefix, atWord_bind, isWord_of_isPunct hs] at h
  refine ok_of_extends hparen (fun a => ?_) h
  refine .ask fun _ => .ask fun _ => .ite .pure (.of_avoids ?_)
  exact .last fun _ => .last fun _ => .last fun _ => .node (by simp)

theorem eatWord_of_isPunct {mark : String} (hs : s.tok.isPunct mark = true) (word : String) :
  eatWord word s = .ok false s
  := by
  simp only [eatWord, atWord_bind, isWord_of_isPunct hs, Bool.false_eq_true, if_false]
  rfl

theorem callExpression_of_leftHand (hc : Bare c) (hs : s.tok.isPunct "(" = true)
    (h : leftHand r c arrow s = .ok e t) :
  callExpression r c arrow s = .ok e t
  := by
  simpa only [leftHand, here_bind, at_bind, hc.markup, Bool.false_and, Bool.false_eq_true, if_false,
    atWord_bind, isWord_of_isPunct hs, bind_ok (eatWord_of_isPunct hs _)] using h

theorem memberExpression_of_callExpression (hc : Bare c) (hparen : e.IsParen)
    (h : callExpression r c arrow s = .ok e t) :
  memberExpression r c arrow s = .ok e t
  := by
  have htypes : Quiet (callTypes? r c) := by
    simp only [callTypes?, hc.typed, Bool.false_and, attemptIf, choose, Bool.false_eq_true,
      if_false]
    infer_instance
  rw [callExpression, here_bind] at h
  refine ok_of_extends hparen (fun a => .ite .pure (.ask fun _ => .ask fun _ => ?_)) h
  refine .ite (.of_avoids ?_) .pure
  exact avoids_of_extends avoids_callTail fun _ => extends_subscripts hc

theorem primary_of_memberExpression (hc : Bare c) (hs : s.tok.isPunct "(" = true)
    (hparen : e.IsParen) (h : memberExpression r c arrow s = .ok e t) :
  primary r c arrow s = .ok e t
  := by
  simp only [memberExpression, here_bind, atWord_bind, isWord_of_isPunct hs, Bool.false_eq_true,
    if_false, bind_ok (eatWord_of_isPunct hs _)] at h
  exact ok_of_extends hparen (fun a => .ite .pure (extends_subscripts hc)) h

theorem parenOrArrow_of_primary (hs : s.tok.isPunct "(" = true)
    (h : primary r c arrow s = .ok e t) :
  parenOrArrow r c arrow s.tok.span.lo none s = .ok e t
  := by
  simp only [primary, here_bind, peek_bind, Token.kind_of_isPunct hs] at h
  exact h

/-- An expression in parentheses is read by the rule for what opens with a parenthesis. -/
theorem parenOrArrow_of_expression {n : Nat} (hc : Bare c) (hs : s.tok.isPunct "(" = true)
    (hparen : e.IsParen) (h : (rules (n + 4)).expression c s = .ok e t) :
  parenOrArrow (rules n) c true s.tok.span.lo none s = .ok e t
  := by
  have hassignment : assignment (rules (n + 2)) c s = .ok e t := assignment_of_expression hparen h
  have hconditional := conditional_of_assignment hc hs hparen hassignment
  have hunary : unary (rules (n + 1)) c true s = .ok e t :=
    unary_of_binary hc hparen (binary_of_conditional hparen hconditional)
  have hleft : leftHand (rules n) c true s = .ok e t := leftHand_of_unary hc hs hparen hunary
  have hcall := callExpression_of_leftHand hc hs hleft
  have hmember := memberExpression_of_callExpression hc hparen hcall
  exact parenOrArrow_of_primary hs (primary_of_memberExpression hc hs hparen hmember)

/-! ### What stands between parentheses -/

/-- Whether an expression is what expressions with commas between them form. -/
inductive Forms : List Tree → Tree → Prop where
  | one (e : Tree) : Forms [e] e
  | many (e f : Tree) (es : List Tree) (span : Span) :
      Forms (e :: f :: es) (.node .sequence span (e :: f :: es))

/-- The context of what stands between parentheses. -/
def innerContext (c : Context) : Context :=
  { c with inOperator := true, inBranch := false, beforeColon := false }

theorem avoids_arrowFrom (hc : Bare c) {lo : Nat} {isAsync : Bool} {items : List ParenItem}
    {result : List Tree} :
  Avoids (arrowFrom r c arrow lo isAsync items result)
  := by
  have htail : Avoids (arrowTail r c lo isAsync items result) :=
    .last fun _ => .last fun _ => .last fun _ => .node (by simp)
  refine .last fun _ => .last fun _ => .last fun _ => htail.bind fun e he => .last fun _ => ?_
  exact .ite (.last fun _ => (extends_binaryFrom hc _ _).avoids he) (.pure he)

/-- The expression in parentheses that items form; none of them is spread. -/
theorem forms_of_parenthesized {lo : Nat} {items : List Tree}
    (h : parenthesized lo items s = .ok e t) :
  t = s ∧ items.any isSpread = false ∧ ∃ f, e.parts = [f] ∧ Forms items f
  := by
  obtain ⟨_, u, hfail, hitems⟩ := bind_eq_ok.mp h
  obtain ⟨hspread, rfl⟩ := failIf_eq_ok.mp hfail
  match items, hitems with
  | [], hitems => exact absurd hitems fail_ne_ok
  | [f], hitems =>
      obtain ⟨⟩ := hitems
      exact ⟨rfl, hspread, f, rfl, .one f⟩
  | f :: g :: items, hitems =>
      obtain ⟨⟩ := hitems
      exact ⟨rfl, hspread, _, rfl, .many f g items _⟩

theorem assignment_of_parenItem (hc : Bare c) {item : ParenItem}
    (h : parenItem r c s = .ok item t) (hspread : isSpread item.tree = false) :
  r.assignment (innerContext c) s = .ok item.tree t
  := by
  rw [parenItem, hc.typed, if_neg Bool.false_ne_true] at h
  obtain ⟨e, u, he, hitem⟩ := bind_eq_ok.mp h
  obtain ⟨⟩ := hitem
  rw [spreadable, here_bind] at he
  obtain ⟨spread, v, heat, he⟩ := bind_eq_ok.mp he
  cases spread with
  | true =>
      obtain ⟨f, w, -, he⟩ := bind_eq_ok.mp he
      obtain ⟨⟩ := he
      contradiction
  | false =>
      obtain ⟨-, rfl⟩ := eat_eq_ok.mp heat
      exact he

theorem commaList_of_items (hc : Bare c) {n : Nat} {items : List ParenItem}
    (h : commaList ")" (parenItem r c) n s = .ok items t)
    (hspread : (items.map (·.tree)).any isSpread = false) :
  commaList ")" (r.assignment (innerContext c)) n s = .ok (items.map (·.tree)) t
  := by
  induction n generalizing s items with
  | zero => exact absurd h fail_ne_ok
  | succ n ih =>
      rw [commaList_eq_ok] at h ⊢
      obtain ⟨hclose, rfl, rfl⟩ | ⟨hopen, item, items, u, rfl, hitem, hrest⟩ := h
      · exact .inl ⟨hclose, rfl, rfl⟩
      · rw [List.map_cons, List.any_cons, Bool.or_eq_false_iff] at hspread
        refine .inr ⟨hopen, _, _, u, rfl, assignment_of_parenItem hc hitem hspread.1, ?_⟩
        obtain ⟨hclose, rfl, rfl⟩ | ⟨hopen, hcomma, hrest⟩ := hrest
        · exact .inl ⟨hclose, rfl, rfl⟩
        · exact .inr ⟨hopen, hcomma, ih hrest hspread.2⟩

/-- Between parentheses stand expressions with commas between them. -/
theorem exists_items_of_parenOrArrow (hc : Bare c) (hparen : e.IsParen) (ht : t.flawed = false)
    {lo : Nat} (h : parenOrArrow r c arrow lo none s = .ok e t) :
  ∃ items u f, commaList ")" (r.assignment (innerContext c)) r.fuel (s.after s.tok) = .ok items u ∧
    u.tok.isPunct ")" = true ∧ t = u.after u.tok ∧ e.parts = [f] ∧ Forms items f
  := by
  simp only [parenOrArrow] at h
  obtain ⟨_, u, hopen, h⟩ := bind_eq_ok.mp h
  obtain ⟨-, rfl⟩ := expect_eq_ok.mp hopen
  obtain ⟨items, v, hlist, h⟩ := bind_eq_ok.mp h
  obtain ⟨_, w, hclose, h⟩ := bind_eq_ok.mp h
  obtain ⟨hmark, rfl⟩ := expect_eq_ok.mp hclose
  simp only [hc.typed, Bool.false_and, attemptIf, choose, Bool.false_eq_true, if_false, pure_bind,
    Option.isSome_none, Bool.or_false, at_bind] at h
  split at h
  · exact absurd hparen (avoids_arrowFrom hc _ _ _ h)
  · obtain ⟨_, x, hflaw, h⟩ := bind_eq_ok.mp h
    obtain ⟨rfl, hspread, f, hparts, hforms⟩ := forms_of_parenthesized h
    obtain ⟨-, rfl⟩ := (flawIf_eq_ok ht).mp hflaw
    have hinner : Bare { c with inOperator := true, beforeColon := false } :=
      ⟨hc.typed, hc.markup, hc.inAsync, hc.inGenerator⟩
    exact ⟨_, v, f, commaList_of_items hinner hlist hspread, hmark, rfl, hparts, hforms⟩

/-- The items of a list behind the first one, if no comma stands behind the last one. -/
theorem collectUntil_of_commaList {item : Tree} {items : List Tree} {n : Nat}
    (h : commaList ")" (r.assignment c) n s = .ok (item :: items) t)
    (ht : t.prevKind ≠ .punct ",") :
  ∃ u, r.assignment c s = .ok item u ∧ u.tok.isPunct "," = !items.isEmpty ∧
    collectUntil (do return !(← at? ",")) (do expect ","; r.assignment c) n u = .ok items t
  := by
  induction n generalizing s item items with
  | zero => exact absurd h fail_ne_ok
  | succ n ih =>
      obtain ⟨-, hnil, -⟩ | ⟨-, _, _, u, heq, hitem, hrest⟩ := commaList_eq_ok.mp h
      · contradiction
      · obtain ⟨rfl, rfl⟩ := List.cons.inj heq
        have hdone : (do return !(← at? ",") : Parser Bool) u = .ok (!u.tok.isPunct ",") u := rfl
        obtain ⟨hclose, rfl, rfl⟩ | ⟨-, hcomma, hlist⟩ := hrest
        · have hopen : t.tok.isPunct "," = false := by
            simp [Token.isPunct, Token.kind_of_isPunct hclose]
          refine ⟨t, hitem, hopen, (collectUntil_eq_ok hdone).mpr (.inl ⟨?_, rfl, rfl⟩)⟩
          rw [hopen, Bool.not_false]
        · cases items with
          | nil =>
              -- the comma would be the token read last
              obtain rfl := eq_of_commaList_nil hlist
              exact absurd (Token.kind_of_isPunct hcomma) ht
          | cons next items =>
              obtain ⟨v, hnext, -, hcollect⟩ := ih hlist
              have hitem' : (do expect ","; r.assignment c) u = .ok next v := by
                rw [bind_ok (expect_eq_ok.mpr ⟨hcomma, rfl⟩)]
                exact hnext
              refine ⟨u, hitem, hcomma, (collectUntil_eq_ok hdone).mpr (.inr ⟨?_, ?_⟩)⟩
              · rw [hcomma, Bool.not_true]
              · exact ⟨next, items, v, rfl, hitem', hcollect⟩

/-- Expressions with commas between them are an expression, if no comma stands behind the last one.
-/
theorem expression_of_commaList {items : List Tree} (hitems : items ≠ [])
    (h : commaList ")" (r.assignment c) r.fuel s = .ok items t) (ht : t.prevKind ≠ .punct ",") :
  ∃ e, expression r c s = .ok e t ∧ Forms items e
  := by
  obtain ⟨item, items, rfl⟩ := List.exists_cons_of_ne_nil hitems
  obtain ⟨u, hitem, hcomma, hrest⟩ := collectUntil_of_commaList h ht
  rw [expression, here_bind, bind_ok hitem, at_bind, hcomma]
  cases items with
  | nil =>
      rw [List.isEmpty_nil, Bool.not_true, if_neg Bool.false_ne_true]
      obtain ⟨-, rfl⟩ := done_of_collectUntil_nil hrest
      exact ⟨item, rfl, .one item⟩
  | cons next items =>
      rw [List.isEmpty_cons, Bool.not_false, if_pos rfl, bind_ok hrest]
      exact ⟨_, rfl, .many item next items _⟩

/-! ### Scripts -/

theorem endStatement_of_endExpression (hc : Bare c) {lo : Nat} {f : Tree} {span : Span}
    (hparen : e.IsParen) (ht : t.flawed = false)
    (h : endExpression r c lo f s = .ok (.node (.statement .expression) span [e]) t) :
  f = e ∧ endStatement s = .ok true t
  := by
  obtain ⟨b, u, hend, hrest⟩ := bind_eq_ok.mp h
  cases b with
  | true =>
      obtain ⟨⟩ := hrest
      exact ⟨rfl, hend⟩
  | false =>
      obtain ⟨mark, v, hmark, hrest⟩ := bind_eq_ok.mp hrest
      cases mark with
      | false => exact absurd hrest fail_ne_ok
      | true =>
          -- what goes on behind an expression without a semicolon is flawed
          obtain ⟨_, w, hflaw, hrest⟩ := bind_eq_ok.mp hrest
          obtain ⟨g, x, hbinary, hnode⟩ := bind_eq_ok.mp hrest
          obtain ⟨⟩ := hflaw
          obtain ⟨⟩ := hnode
          obtain ⟨-, rfl⟩ := extends_binaryFrom hc _ _ _ _ _ hbinary hparen
          contradiction

theorem gives_labelled {lo : Nat} :
  Gives (fun f => f.kind? = some (.statement .labelled)) (labelled r c lo e)
  := .last fun _ => .last fun _ => .kind

theorem expression_of_expressionStatement (hc : Bare c) {lo : Nat} {front : List Tree} {span : Span}
    (hparen : e.IsParen) (ht : t.flawed = false)
    (h : expressionStatement r c lo front s = .ok (.node (.statement .expression) span [e]) t) :
  ∃ u, r.expression c s = .ok e u ∧ endStatement u = .ok true t
  := by
  obtain ⟨f, u, hf, hrest⟩ := bind_eq_ok.mp h
  have hyields : Yields _ u fun a v => a = Tree.node (.statement .expression) span [e] ∧ v = t :=
    ⟨_, _, hrest, rfl, rfl⟩
  split at hyields
  · next w hname =>
    obtain ⟨_, _, hnamed, rfl, rfl⟩ := hyields
    obtain ⟨label, v, -, hend⟩ := bind_eq_ok.mp hnamed
    cases label with
    | true =>
        have hkind := gives_labelled v _ _ hend
        simp [Tree.kind?] at hkind
    | false =>
        rw [if_neg Bool.false_ne_true, hc.typed] at hend
        obtain ⟨rfl, -⟩ := endStatement_of_endExpression hc hparen ht hend
        simp [Tree.IsParen, hname] at hparen
  · obtain ⟨_, _, hother, rfl, rfl⟩ := hyields
    obtain ⟨_, v, hflaw, hrun⟩ := bind_eq_ok.mp hother
    obtain ⟨rfl, hend⟩ := endStatement_of_endExpression hc hparen ht hrun
    obtain ⟨-, rfl⟩ := (flawIf_eq_ok (flawed_of_endStatement hend ht)).mp hflaw
    exact ⟨v, hf, hend⟩

/-- A statement that opens with a parenthesis and is an expression in parentheses. -/
theorem expression_of_statement {n : Nat} (hc : Bare c) {declares : Bool} {span : Span}
    (hs : s.tok.isPunct "(" = true) (hparen : e.IsParen) (ht : t.flawed = false)
    (h : (rules (n + 2)).statement c declares s = .ok (.node (.statement .expression) span [e]) t) :
  ∃ u, (rules (n + 1)).expression (statementContext c) s = .ok e u ∧ endStatement u = .ok true t
  := by
  have hdecorators : (rules (n + 1)).decorators c = pure [] := by
    show decorators (rules n) c = pure []
    rw [decorators, hc.typed, if_neg Bool.false_ne_true]
  have hc' : Bare (statementContext c) := ⟨hc.typed, hc.markup, hc.inAsync, hc.inGenerator⟩
  replace h : statement (rules (n + 1)) c declares s
      = .ok (.node (.statement .expression) span [e]) t := h
  rw [statement, here_bind, hdecorators, pure_bind, statementFrom, peek_bind,
    Token.kind_of_isPunct hs] at h
  exact expression_of_expressionStatement hc' hparen ht h

/-- The only statement of a script reaches up to the end of the text. -/
theorem statement_of_parseScript {text : String} (h : parseScript text = some [e])
    (htext : Text.withoutMark text.toList = text.toList) :
  ∃ t, (rules (fuelFor text.toList)).statement { typed := false, markup := false } true
      (Parser.start false text.toList) = .ok e t ∧
    t.tok.kind = .stop ∧ t.tok.flawed = false ∧ t.flawed = false
  := by
  have hstop : ∀ s : State, atStop? s = .ok (s.tok.kind == .stop) s := fun _ => rfl
  obtain ⟨n, hn⟩ : ∃ n, fuelFor text.toList = n + 1 := ⟨8 * text.toList.length + 63, rfl⟩
  simp only [parseScript, htext] at h
  split at h
  · next parsed t hfile =>
    obtain ⟨items, u, hitems, hrest⟩ := bind_eq_ok.mp hfile
    obtain ⟨_, v, hadvance, hrest⟩ := bind_eq_ok.mp hrest
    obtain ⟨⟩ := hrest
    rw [hn] at hitems ⊢
    split at h
    · contradiction
    · next hflawed =>
      obtain rfl : items = [e] := by simpa [Tree.parts] using h
      obtain ⟨-, hnil, -⟩ | ⟨-, _, _, w, heq, hitem, hnil⟩ :=
        (collectUntil_eq_ok (hstop _)).mp hitems
      · contradiction
      · obtain ⟨rfl, rfl⟩ := List.cons.inj heq
        obtain ⟨hend, rfl⟩ := done_of_collectUntil_nil hnil
        rw [hstop, EStateM.Result.ok.injEq, beq_iff_eq] at hend
        have hbad : u.tok.kind ≠ .bad := by simp [hend.1]
        rw [advance_of_ne_bad hbad] at hadvance
        obtain ⟨⟩ := hadvance
        have hflaws := Bool.or_eq_false_iff.mp (Bool.not_eq_true _ ▸ hflawed)
        exact ⟨u, hitem, hend.1, hflaws.2, hflaws.1⟩
  · contradiction

end Grammar

/-! ### The end of a text -/

/-- No comment that ends holds the parenthesis on the last line, so that a gap in front of it does
not reach up to the end of the text. -/
theorem Gap.readFrom_wrapped (mode : Gap.Mode) (comments : List Comment) (newline flawed : Bool)
    (pos : Nat) (front : List Char) :
  (Gap.readFrom mode comments newline flawed pos (front ++ ['\n', ')'])).rest ≠ [] ∨
    (Gap.readFrom mode comments newline flawed pos (front ++ ['\n', ')'])).flawed = true
  := by
  induction front generalizing mode comments newline flawed pos with
  | nil =>
      cases mode with
      | blank => exact .inl (List.cons_ne_nil _ _)
      | line lo skip text => exact .inl (List.cons_ne_nil _ _)
      | block lo skip text =>
          -- the text ends within the comment
          right
          cases skip with
          | zero => simp [Gap.readFrom]
          | succ skip => cases skip <;> simp [Gap.readFrom]
      | closing lo text => exact .inl (List.cons_ne_nil _ _)
  | cons c front ih =>
      cases mode with
      | blank =>
          simp only [List.cons_append, Gap.readFrom]
          split_ifs
          case neg =>
            -- the gap ends
            exact .inl (List.cons_ne_nil _ _)
          all_goals apply ih
      | line lo skip text =>
          simp only [List.cons_append, Gap.readFrom]
          split_ifs
          all_goals apply ih
      | block lo skip text =>
          simp only [List.cons_append, Gap.readFrom]
          split_ifs
          all_goals apply ih
      | closing lo text => apply ih

theorem kind_finishNumber {cs rest : List Char} {kind : Token.Kind} {flawed : Bool}
    (h : kind ≠ .stop) :
  (finishNumber cs rest kind flawed).kind ≠ .stop
  := by
  unfold finishNumber
  split
  · split
    · simp
    · exact h
  · exact h

theorem kind_readRadix (base : Nat) (cs : List Char) :
  (readRadix base cs).kind ≠ .stop
  := by
  simp only [readRadix]
  split
  · simp
  · split
    · exact kind_finishNumber (by simp)
    · exact kind_finishNumber (by simp)

theorem kind_readDecimal (cs : List Char) :
  (readDecimal cs).kind ≠ .stop
  := by
  simp only [readDecimal]
  split
  · exact kind_finishNumber (by simp)
  · split
    · exact kind_finishNumber (by simp)
    · split
      · simp
      · exact kind_finishNumber (by simp)

theorem kind_readNumber (cs : List Char) :
  (readNumber cs).kind ≠ .stop
  := by
  unfold readNumber
  split
  · split
    · apply kind_readRadix
    · split
      · apply kind_readRadix
      · split
        · apply kind_readRadix
        · apply kind_readDecimal
  · apply kind_readDecimal

theorem kind_readWord (modular : Bool) (cs : List Char) :
  (readWord modular cs).kind ≠ .stop
  := by
  unfold readWord
  split
  · simp
  · simp only
    split
    · simp
    · simp

/-- Only the end of the text is read as such. -/
theorem kind_readLexeme_cons (modular : Bool) (c : Char) (cs : List Char) :
  (readLexeme modular (c :: cs)).kind ≠ .stop
  := by
  rw [readLexeme]
  split
  · apply kind_readWord
  · split
    · apply kind_readNumber
    · split
      · obtain ⟨value, h⟩ | h := kind_stringFrom c 1 0 [] cs
        · simp [h]
        · simp [h]
      · split
        · unfold readBackquote
          split
          · simp
          · simp
        · simp only [readPunct]
          split
          · simp
          · split <;> simp

variable {front cs : List Char} {modular newline : Bool} {pos : Nat}

/-- What is left of a text in parentheses: its end and what stands before it, the last parenthesis
alone, or nothing. -/
theorem stands_cases (h : Stands (front ++ ['\n', ')']) cs pos) :
  (∃ front', cs = front' ++ ['\n', ')']) ∨ cs = [')'] ∨ cs = []
  := by
  obtain ⟨pre, h, -⟩ := h
  obtain ⟨mid, -, hend⟩ | ⟨mid, -, rfl⟩ := List.append_eq_append_iff.mp h
  · obtain _ | ⟨c, _ | ⟨d, _ | ⟨e, mid⟩⟩⟩ := mid
    · exact .inl ⟨[], hend.symm⟩
    · exact .inr (.inl (List.cons.inj hend).2.symm)
    · simp_all
    · simp_all
  · exact .inl ⟨mid, rfl⟩

/-- A text in parentheses is read to its end only behind the last one. -/
theorem eq_nil_of_stop (h : Stands (front ++ ['\n', ')']) cs pos)
    (hkind : (Token.read modular newline pos cs).kind = .stop)
    (hflawed : (Token.read modular newline pos cs).flawed = false) :
  cs = []
  := by
  have hrest : (Gap.read newline pos cs).rest = [] := by
    cases hgap : (Gap.read newline pos cs).rest with
    | nil => rfl
    | cons c rest =>
        rw [Token.read, hgap] at hkind
        exact absurd hkind (kind_readLexeme_cons modular c rest)
  obtain ⟨front', rfl⟩ | rfl | rfl := stands_cases h
  · rw [Token.read, Token.ofLexeme, Bool.or_eq_false_iff] at hflawed
    obtain hne | hflaw := Gap.readFrom_wrapped .blank [] newline false pos front'
    · exact absurd hrest hne
    · rw [Gap.read, hflaw] at hflawed
      exact absurd hflawed.1.symm Bool.false_ne_true
  · contradiction
  · rfl

/-- A semicolon is not the last of a text in parentheses. -/
theorem rest_ne_nil_of_semicolon (h : Stands (front ++ ['\n', ')']) cs pos)
    (hkind : (Token.read modular newline pos cs).kind = .punct ";") :
  (Token.read modular newline pos cs).rest ≠ []
  := by
  have hgap := (Gap.located_read newline h).rest
  obtain ⟨⟨rest, hrest⟩, -⟩ := (located_readLexeme modular _).punct ";" hkind
  rw [← hrest] at hgap
  have hread : (Token.read modular newline pos cs).rest = rest := by
    rw [Token.read, ← hrest]
    rfl
  rw [hread]
  rintro rfl
  obtain ⟨front', heq⟩ | heq | heq := stands_cases hgap
  · obtain _ | ⟨c, front'⟩ := front'
    · simp at heq
    · simp at heq
  · simp at heq
  · simp at heq

open Grammar in
/-- A statement that ends with the parenthesis of a text in parentheses ends with the last one. -/
theorem rest_eq_nil_of_endStatement {s t : State}
    (hs : (s.after s.tok).Sound (front ++ ['\n', ')']))
    (hend : endStatement (s.after s.tok) = .ok true t) (hkind : t.tok.kind = .stop)
    (hflawed : t.tok.flawed = false) :
  s.tok.rest = []
  := by
  have hrest : Stands (front ++ ['\n', ')']) s.tok.rest s.tok.span.hi := hs.prev
  obtain ⟨hmark, rfl⟩ | rfl := endStatement_eq_ok hend
  · have hnil := eq_nil_of_stop hs.tok.rest hkind hflawed
    exact absurd hnil (rest_ne_nil_of_semicolon hrest (Token.kind_of_isPunct hmark))
  · exact eq_nil_of_stop hrest hkind hflawed

end Prune.Source
