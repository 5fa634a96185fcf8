import Prune.Proofs.Source.Scripts

/-!
# Operands of scripts

How scripts read expressions that are made of names and parentheses.  An operand is a name or stands
in parentheses (`Atomic`), and ends in front of a token that nothing can hang on (`operandEnds`).
There is one lemma for each rule of the grammar that such an expression goes through, from the
operand itself (`yields_primary_name`, `yields_primary_paren`) through negations
(`yields_unary_not`), operators (`yields_binary`) and conditions (`yields_conditional`) to whole
expressions (`yields_assignment`).
-/

namespace Prune.Source.Grammar

open Prune.Source.Parser

/-- Whether a text is one of a script that stands in no function of a special kind. -/
structure Bare (c : Context) : Prop where
  typed : c.typed = false
  markup : c.markup = false
  inAsync : c.inAsync = false
  inGenerator : c.inGenerator = false

/-- The kinds of the tokens that end an operand. -/
def operandEnds : List Token.Kind :=
  [.punct ")", .punct "&&", .punct "||", .punct "?", .punct ":", .stop]

/-- The kinds of the tokens that end operands with binary operators between them. -/
def binaryEnds : List Token.Kind :=
  [.punct ")", .punct "?", .punct ":", .stop]

/-- The kinds of the tokens that end an expression without commas. -/
def assignmentEnds : List Token.Kind :=
  [.punct ")", .punct ":", .stop]

/-- Whether a word is a name that starts no expression of a special kind. -/
structure PlainWord (w : String) : Prop where
  notReserved : w ∉ reservedWords
  notPrefix : w ∉ prefixOps
  notAwait : w ≠ "await"
  notAsync : w ≠ "async"

/-- The kinds of the tokens that an operand starts with: a parenthesis or a name. -/
inductive StartsOperand : Token.Kind → Prop where
  | paren : StartsOperand (.punct "(")
  | word {w : String} (h : PlainWord w) : StartsOperand (.word w false)

/-- Whether an expression is a name or stands in parentheses. -/
inductive Atomic : Tree → Prop where
  | name (text : String) (span : Span) : Atomic (.node (.name text) span [])
  | paren (span : Span) (e : Tree) : Atomic (.node .paren span [e])

variable {r : Rules} {c : Context} {s : State} {q : Tree → State → Prop} {arrow : Bool}

/-! ### What tokens and trees are not -/

theorem mem_binaryEnds {kind : Token.Kind} (h : kind ∈ assignmentEnds) :
  kind ∈ binaryEnds
  := by
  simp only [assignmentEnds, binaryEnds, List.mem_cons] at h ⊢
  tauto

/-- Nothing hangs on an operand in front of a token that ends it. -/
theorem marks_of_operandEnds {t : Token} (h : t.kind ∈ operandEnds) :
  t.isAnyPunct ["++", "--"] = false ∧ t.isPunct "=>" = false ∧ t.isPunct "(" = false
  := by
  simp only [operandEnds, List.mem_cons, List.not_mem_nil, or_false] at h
  obtain h | h | h | h | h | h := h
  all_goals simp [Token.isAnyPunct, Token.isPunct, h]

theorem PlainWord.ne_of_reserved {w v : String} (hw : PlainWord w) (hv : v ∈ reservedWords) :
  w ≠ v
  := by
  rintro rfl
  exact hw.notReserved hv

/-- A word that starts as names do is one, unless it is a word of the grammar. -/
theorem plainWord_of_isIdentStart {c : Char} {cs : List Char} (hc : Text.isIdentStart c = true)
    (hword : String.ofList (c :: cs) ∉ reservedWords ++ ["async", "await"]) :
  PlainWord (String.ofList (c :: cs))
  := by
  rw [List.mem_append, not_or] at hword
  obtain ⟨hreserved, hcontext⟩ := hword
  have hmark : ∀ d, String.ofList (c :: cs) = String.singleton d → Text.isIdentStart d = true := by
    intro d hd
    have hlist := congrArg String.toList hd
    rw [String.toList_ofList, String.toList_singleton] at hlist
    obtain ⟨rfl, -⟩ := List.cons.inj hlist
    exact hc
  constructor
  · exact hreserved
  · intro hprefix
    simp only [prefixOps, List.mem_cons, List.not_mem_nil, or_false] at hprefix
    obtain h | h | h | h | h | h | h := hprefix
    · exact hreserved (by rw [h]; decide)
    · exact hreserved (by rw [h]; decide)
    · exact hreserved (by rw [h]; decide)
    · exact absurd (hmark '+' h) (by decide)
    · exact absurd (hmark '-' h) (by decide)
    · exact absurd (hmark '~' h) (by decide)
    · exact absurd (hmark '!' h) (by decide)
  · intro h
    exact hcontext (by rw [h]; decide)
  · intro h
    exact hcontext (by rw [h]; decide)

theorem StartsOperand.isWord_eq {t : Token} {w : String} (h : StartsOperand t.kind)
    (hw : w ∈ reservedWords ∨ w = "await") :
  t.isWord w = false
  := by
  unfold Token.isWord Token.keyword?
  generalize t.kind = kind at h
  cases h with
  | paren => rfl
  | word hv =>
      obtain hw | rfl := hw
      · simpa using hv.ne_of_reserved hw
      · simpa using hv.notAwait

theorem Atomic.isArrow_eq {e : Tree} (h : Atomic e) :
  isArrow e = false
  := by
  cases h <;> rfl

theorem Atomic.isBareNew_eq {e : Tree} (h : Atomic e) :
  isBareNew e = false
  := by
  cases h <;> rfl

theorem operatorOf?_eq_none {t : Token} (h : t.kind ∈ binaryEnds) :
  operatorOf? c t = none
  := by
  simp only [binaryEnds, List.mem_cons, List.not_mem_nil, or_false] at h
  obtain h | h | h | h := h
  all_goals simp [operatorOf?, Token.glue, Token.isPunct, h, precedence?]

theorem assignOperatorOf?_eq_none {t : Token} (h : t.kind ∈ assignmentEnds) :
  assignOperatorOf? t = none
  := by
  simp only [assignmentEnds, List.mem_cons, List.not_mem_nil, or_false] at h
  obtain h | h | h := h
  all_goals simp [assignOperatorOf?, Token.glue, Token.isPunct, h, assignOps]

/-! ### Operands -/

theorem yields_subscripts {calls indexes : Bool} {lo : Nat} {e : Tree} (hc : Bare c)
    (hs : s.tok.kind ∈ operandEnds) (hr : 0 < r.fuel) (hq : q e s) :
  Yields (subscripts r c calls indexes lo e) s q
  := by
  obtain ⟨n, hn⟩ : ∃ n, r.fuel = n + 1 := ⟨r.fuel - 1, by omega⟩
  simp only [operandEnds, List.mem_cons, List.not_mem_nil, or_false] at hs
  rw [subscripts, hn, iterate]
  simp only [subscriptStep, attemptIf, choose, hc.typed, Bool.false_and, Bool.false_eq_true,
    ↓reduceIte, bind_pure_comp, pure_bind, bind_assoc, yields_bind, yields_peek]
  obtain h | h | h | h | h | h := hs
  all_goals simp [h, hq]

theorem yields_memberExpression (hc : Bare c) (hr : 0 < r.fuel) (hs : StartsOperand s.tok.kind)
    (h : Yields (primary r c arrow) s fun e t => Atomic e ∧ t.tok.kind ∈ operandEnds ∧ q e t) :
  Yields (memberExpression r c arrow) s q
  := by
  have hnew := hs.isWord_eq (w := "new") (by decide)
  have hsuper := hs.isWord_eq (w := "super") (by decide)
  have himport := hs.isWord_eq (w := "import") (by decide)
  simp only [memberExpression, yields_bind, yields_atWord?, yields_here, yields_eatWord, hnew,
    hsuper, himport, Bool.false_eq_true, ↓reduceIte]
  apply h.mono
  rintro e t ⟨he, ht, hq⟩
  rw [he.isArrow_eq, if_neg Bool.false_ne_true]
  exact yields_subscripts hc ht hr hq

theorem yields_leftHand (hc : Bare c) (hr : 0 < r.fuel) (hs : StartsOperand s.tok.kind)
    (h : Yields (primary r c arrow) s fun e t => Atomic e ∧ t.tok.kind ∈ operandEnds ∧ q e t) :
  Yields (leftHand r c arrow) s q
  := by
  have hsuper := hs.isWord_eq (w := "super") (by decide)
  have himport := hs.isWord_eq (w := "import") (by decide)
  have hmember : Yields (memberExpression r c arrow) s
      fun e t => Atomic e ∧ t.tok.kind ∈ operandEnds ∧ q e t := by
    apply yields_memberExpression hc hr hs
    apply h.mono
    rintro e t ⟨he, ht, hq⟩
    exact ⟨he, ht, he, ht, hq⟩
  simp only [leftHand, hc.markup, Bool.false_and, Bool.false_eq_true, ↓reduceIte, callExpression,
    yields_bind, yields_atWord?, yields_at?, yields_here, yields_eatWord, hsuper, himport]
  apply hmember.mono
  rintro e t ⟨he, ht, hq⟩
  simp [he.isArrow_eq, he.isBareNew_eq, callTypes?, attemptIf, choose, hc.typed,
    marks_of_operandEnds ht, hq]

theorem yields_unary (hc : Bare c) (hs : StartsOperand s.tok.kind)
    (h : Yields (r.leftHand c arrow) s fun e t => Atomic e ∧ t.tok.kind ∈ operandEnds ∧ q e t) :
  Yields (unary r c arrow) s q
  := by
  have hupdate : s.tok.isAnyPunct ["++", "--"] = false := by
    unfold Token.isAnyPunct
    generalize s.tok.kind = kind at hs
    cases hs <;> simp
  have hawait := hs.isWord_eq (w := "await") (by decide)
  have hop : Yields prefixOperator? s fun op t => op = none ∧ t = s := by
    rw [prefixOperator?, yields_bind, yields_peek]
    generalize s.tok.kind = kind at hs
    cases hs with
    | paren => simp [prefixOps]
    | word hw => simp [hw.notPrefix]
  simp only [unary, hc.typed, Bool.false_and, Bool.false_eq_true, ↓reduceIte, Bool.or_eq_true,
    Bool.not_eq_eq_eq_not, Bool.not_true, yields_bind, yields_atAny?, yields_at?, yields_here,
    hupdate]
  apply hop.mono
  rintro op t ⟨rfl, rfl⟩
  simp only [yields_bind, yields_atWord?, hawait, Bool.false_eq_true, ↓reduceIte, yields_atAny?,
    yields_newline?]
  apply h.mono
  rintro e t ⟨he, ht, hq⟩
  simp [marks_of_operandEnds ht, hq]

theorem yields_primary_name {w : String} (hc : Bare c) (hw : PlainWord w)
    (hs : s.tok.kind = .word w false) (ht : (s.after s.tok).tok.kind ∈ operandEnds)
    (hq : ∀ span, q (.node (.name w) span []) (s.after s.tok)) :
  Yields (primary r c arrow) s q
  := by
  have hne : ∀ v ∈ ["this", "null", "true", "false", "function", "class"], w ≠ v := by
    intro v hv
    apply hw.ne_of_reserved
    simp only [List.mem_cons, List.not_mem_nil, or_false] at hv
    obtain rfl | rfl | rfl | rfl | rfl | rfl := hv
    all_goals decide
  have hname : isNameToken c s.tok = true := by
    simp [isNameToken, isWordWhere, hs, isName, isReservedIn, isReserved, hw.notReserved, hc.typed,
      hc.inAsync, hc.inGenerator]
  have hadvance : s.tok.kind ≠ .bad := by simp [hs]
  simp only [primary, leaf, nameOrArrow, name, atName?, bind_pure_comp, anyWord, Token.word?,
    bind_map_left, bind_assoc, wordExpression, beq_iff_eq, yields_bind, yields_peek, yields_here,
    hs, Bool.false_eq_true, ↓reduceIte, List.mem_cons, String.reduceEq, List.not_mem_nil, or_self,
    or_false, hne, or_true, hw.notAsync, yields_newline?, hname, yields_node,
    yields_advance hadvance]
  simp only [eatIf, Bool.and_eq_true, Bool.not_eq_eq_eq_not, Bool.not_true]
  split
  · simp [marks_of_operandEnds ht, hq]
  · simp [hq]

theorem yields_primary_paren (hc : Bare c) (hr : 0 < r.fuel) (hs : s.tok.kind = .punct "(")
    (hin : ∀ mark ∈ [")", "..."], (s.after s.tok).tok.isPunct mark = false)
    (h : ∀ c', Bare c' → Yields (r.assignment c') (s.after s.tok) fun e t =>
      isSpread e = false ∧ holdsDefault e = false ∧ t.tok.kind = .punct ")" ∧
        (t.after t.tok).tok.kind ∈ operandEnds ∧
        ∀ span, q (.node .paren span [e]) (t.after t.tok)) :
  Yields (primary r c arrow) s q
  := by
  obtain ⟨n, hn⟩ : ∃ n, r.fuel = n + 1 := ⟨r.fuel - 1, by omega⟩
  have hopen : s.tok.isPunct "(" = true := by simp [Token.isPunct, hs]
  simp only [primary, parenOrArrow, parenItem, hc.typed, Bool.false_eq_true, ↓reduceIte,
    spreadable, bind_pure_comp, map_bind, hn, commaList, bind_assoc, bind_map_left, Bool.false_and,
    Option.isSome_none, Bool.or_eq_true, List.any_eq_true, yields_bind, yields_peek, yields_here,
    hs, yields_at?, yields_expect hopen, List.mem_cons, String.reduceEq, List.not_mem_nil, or_self,
    or_false, hin, yields_eat, yields_node, or_true]
  refine (h _ ?_).mono ?_
  · exact ⟨rfl, hc.markup, hc.inAsync, hc.inGenerator⟩
  · rintro e t ⟨hspread, hdefault, ht, hend, hq⟩
    have hat : t.tok.isPunct ")" = true := by simp [Token.isPunct, ht]
    simp only [hat, ↓reduceIte, attemptIf, choose, Bool.false_eq_true, pure_bind,
      Option.isSome_none, or_false, Option.toList_none, yields_pure, yields_bind, yields_at?,
      List.mem_cons, List.not_mem_nil, exists_eq_left, false_or, List.map_cons, List.map_nil,
      yields_expect hat]
    simp [marks_of_operandEnds hend, flawIf, anyHoldsDefault, hdefault, parenthesized, failIf,
      hspread, hq]

/-! ### Operators -/

theorem yields_binaryFrom {e : Tree} {n least : Nat} (hc : Bare c) (hs : s.tok.kind ∈ binaryEnds)
    (hq : q e s) :
  Yields (binaryFrom r c (n + 1) e least) s q
  := by
  simp [binaryFrom, hc.typed, operator?, operatorOf?_eq_none hs, hq]

theorem yields_binary_operand (hc : Bare c) (hr : 0 < r.fuel)
    (h : Yields (r.unary c arrow) s fun e t =>
      isArrow e = false ∧ t.tok.kind ∈ binaryEnds ∧ q e t) :
  Yields (binary r c arrow) s q
  := by
  obtain ⟨n, hn⟩ : ∃ n, r.fuel = n + 1 := ⟨r.fuel - 1, by omega⟩
  simp only [binary, hn, yields_bind, yields_here]
  apply Yields.recover
  apply h.mono
  rintro e t ⟨he, ht, hq⟩
  simp [he, yields_binaryFrom hc ht hq]

theorem yields_binary {op : String} (hc : Bare c) (hr : 1 < r.fuel) (hop : op ∈ ["&&", "||"])
    (h : Yields (r.unary c arrow) s fun left t =>
      isArrow left = false ∧ t.tok.kind = .punct op ∧
        Yields (r.unary c false) (t.after t.tok) fun right u =>
          u.tok.kind ∈ binaryEnds ∧ ∀ span, q (.node (.binary op) span [left, right]) u) :
  Yields (binary r c arrow) s q
  := by
  obtain ⟨n, hn⟩ : ∃ n, r.fuel = n + 2 := ⟨r.fuel - 2, by omega⟩
  simp only [binary, hn, yields_bind, yields_here]
  apply Yields.recover
  apply h.mono
  rintro left t ⟨hleft, ht, hright⟩
  have hstrength : ∃ k, precedence? op = some (k + 1) ∧ op ≠ "**" ∧ op ≠ "??" := by
    simp only [List.mem_cons, List.not_mem_nil, or_false] at hop
    obtain rfl | rfl := hop
    · exact ⟨2, rfl, by decide, by decide⟩
    · exact ⟨1, rfl, by decide, by decide⟩
  obtain ⟨k, hk, hpower, hdefault⟩ := hstrength
  have hglue : t.tok.glue = t.tok := by
    have hgreater : t.tok.isPunct ">" = false := by
      simp only [List.mem_cons, List.not_mem_nil, or_false] at hop
      obtain rfl | rfl := hop
      all_goals simp [Token.isPunct, ht]
    simp [Token.glue, hgreater]
  have hoperator : operatorOf? c t.tok = some (t.tok, op, k + 1) := by
    simp [operatorOf?, hglue, ht, hk]
  have hbad : t.tok.kind ≠ .bad := by simp [ht]
  simp only [hleft, Bool.false_eq_true, if_false]
  rw [binaryFrom]
  simp only [hc.typed, Bool.false_and, Bool.false_eq_true, ↓reduceIte, operator?, bind_pure_comp,
    Nat.le_zero_eq, failIf, Bool.and_eq_true, beq_iff_eq, bind_map_left, yields_bind, yields_peek,
    yields_atWord?, yields_newline?, hoperator, Nat.add_eq_zero_iff, Nat.succ_ne_self, and_false,
    hpower, false_and, pure_bind, yields_node, yields_take hbad]
  apply hright.mono
  rintro right u ⟨hu, hq⟩
  apply yields_binaryFrom hc hu
  simp only [flawIf, Bool.and_eq_true, beq_iff_eq, hdefault, Bool.or_eq_true, false_and,
    ↓reduceIte, yields_pure]
  exact yields_binaryFrom hc hu (hq _)

theorem yields_unary_not (hc : Bare c) (hs : s.tok.kind = .punct "!")
    (h : Yields (r.unary c false) (s.after s.tok) fun e t =>
      ∀ span, q (.node (.unary "!") span [e]) t) :
  Yields (unary r c arrow) s q
  := by
  have hbad : s.tok.kind ≠ .bad := by simp [hs]
  simp only [unary, hc.typed, Bool.false_and, Bool.false_eq_true, ↓reduceIte, prefixOperator?,
    prefixOps, List.contains_eq_mem, List.mem_cons, List.not_mem_nil, or_false, Bool.decide_or,
    Bool.or_eq_true, decide_eq_true_eq, Bool.not_eq_eq_eq_not, Bool.not_true, bind_assoc,
    yields_bind, yields_atAny?, Token.isAnyPunct, yields_at?, yields_here, hs, String.reduceEq,
    decide_false, Bool.or_self, yields_peek, or_true, yields_pure, yields_advance hbad]
  apply Yields.recover
  apply h.mono
  intro e t hq
  simp [hq]

theorem yields_conditional_binary
    (h : Yields (binary r c arrow) s fun e t =>
      isArrow e = false ∧ t.tok.kind ∈ assignmentEnds ∧ q e t) :
  Yields (conditional r c arrow) s q
  := by
  simp only [conditional, yields_bind, yields_here]
  apply h.mono
  rintro e t ⟨he, ht, hq⟩
  have hquestion : t.tok.isPunct "?" = false := by
    simp only [assignmentEnds, List.mem_cons, List.not_mem_nil, or_false] at ht
    obtain h | h | h := ht
    all_goals simp [Token.isPunct, h]
  simp [he, conditionalFrom, hquestion, hq]

theorem yields_conditional (hc : Bare c)
    (h : Yields (binary r c arrow) s fun test t =>
      isArrow test = false ∧ t.tok.kind = .punct "?" ∧
        ∀ c', Bare c' → Yields (r.assignment c') (t.after t.tok) fun yes u =>
          u.tok.kind = .punct ":" ∧
          ∀ c', Bare c' → Yields (r.assignment c') (u.after u.tok) fun no v =>
            ∀ span, q (.node .conditional span [test, yes, no]) v) :
  Yields (conditional r c arrow) s q
  := by
  have hbranch : ∀ before inOperator,
      Bare { c with inBranch := true, beforeColon := before, inOperator := inOperator } :=
    fun _ _ => ⟨hc.typed, hc.markup, hc.inAsync, hc.inGenerator⟩
  simp only [conditional, yields_bind, yields_here]
  apply h.mono
  rintro test t ⟨htest, ht, hbranches⟩
  have hat : t.tok.isPunct "?" = true := by simp [Token.isPunct, ht]
  simp only [htest, Bool.false_eq_true, ↓reduceIte, conditionalFrom, yields_bind, yields_eat, hat,
    yields_node]
  apply (hbranches _ (hbranch _ _)).mono
  rintro yes u ⟨hu, hno⟩
  have hcolon : u.tok.isPunct ":" = true := by simp [Token.isPunct, hu]
  rw [yields_expect hcolon]
  apply (hno _ (hbranch _ _)).mono
  intro no v hq
  exact hq _

theorem yields_assignment (hc : Bare c)
    (h : ∀ arrow, Yields (conditional r c arrow) s fun e t =>
      t.tok.kind ∈ assignmentEnds ∧ q e t) :
  Yields (assignment r c) s q
  := by
  simp only [assignment, peekSecond, attemptIf, choose, hc.typed, Bool.false_and,
    Bool.false_eq_true, ↓reduceIte, plainAssignment, hc.inGenerator, pure_bind, bind_assoc,
    yields_bind, yields_peek, yields_atWord?, yields_here, yields_at?, yields_peekBehind]
  apply (h _).mono
  rintro e t ⟨ht, hq⟩
  split
  · exact yields_pure.mpr hq
  · simp [assignFrom, assignOperator?, assignOperatorOf?_eq_none ht, hq]

end Prune.Source.Grammar
