import Mathlib.Data.List.Basic
import Prune.Proofs.Source.Operands

/-!
# Calls and functions in modules

How modules read two statements that stand for many others: a call, which goes through all rules of
the grammar for expressions, with what is in its parentheses (`yields_statementFrom_call`), and a
function without parameters, which has other statements in it (`yields_statementFrom_function`).  As
for the operands of scripts there is one lemma for each rule.  A list, such as that of the arguments
of a call, is read member by member: at its end (`yields_commaList_done`), a last member
(`yields_commaList_last`) or one in front of a comma (`yields_commaList_item`).
-/

namespace Prune.Source.Grammar

open Prune.Source.Parser

/-- Whether a word is a name in modules, which starts no expression of a special kind. -/
structure ModuleWord (w : String) : Prop extends PlainWord w where
  notModular : w ∉ moduleWords

theorem ModuleWord.ne {w v : String} (h : ModuleWord w) (hv : v ∈ reservedWords ++ moduleWords) :
  w ≠ v
  := by
  rintro rfl
  obtain hv | hv := List.mem_append.mp hv
  · exact h.notReserved hv
  · exact h.notModular hv

variable {r : Rules} {c : Context} {s : State} {q : Tree → State → Prop} {arrow : Bool} {w : String}

/-- Whether a call without arguments comes next, in front of a semicolon. -/
structure AtCall (w : String) (s : State) : Prop where
  word : s.tok.kind = .word w false
  opens : (s.after s.tok).tok.kind = .punct "("
  closes : ((s.after s.tok).after (s.after s.tok).tok).tok.kind = .punct ")"

/-- The state behind a call without arguments. -/
def behindCall (s : State) : State :=
  let t := (s.after s.tok).after (s.after s.tok).tok
  t.after t.tok

/-- The call of a name. -/
def callOf (w : String) (lo mid hi : Nat) (arguments : List Tree) : Tree :=
  .node (.call .plain) ⟨lo, hi⟩ [.node (.name w) ⟨lo, mid⟩ [], .series .list arguments]

/-- The kinds of the tokens that end an expression in a list or a statement. -/
def itemEnds : List Token.Kind :=
  [.punct ";", .punct ",", .punct ")", .punct "]"]

/-- Whether an expression starts with a name or an array. -/
structure StartsPrimary (s : State) : Prop where
  notMark : ∀ mark ∈ ["<", "++", "--"], s.tok.isPunct mark = false
  notWord : ∀ v ∈ ["new", "super", "import", "await", "yield"], s.tok.isWord v = false
  notOperator : Yields prefixOperator? s fun op t => op = none ∧ t = s

theorem startsPrimary_of_word (hw : ModuleWord w) (hs : s.tok.kind = .word w false) :
  StartsPrimary s
  := by
  constructor
  · intro mark _
    simp [Token.isPunct, hs]
  · intro v hv
    have hreserved : ∀ v ∈ ["new", "super", "import", "await", "yield"],
        v ∈ reservedWords ++ moduleWords := by decide
    simpa [Token.isWord, Token.keyword?, hs] using hw.ne (hreserved v hv)
  · simp [prefixOperator?, hs, hw.notPrefix]

theorem startsPrimary_of_bracket (hs : s.tok.kind = .punct "[") :
  StartsPrimary s
  := by
  constructor
  · simp [Token.isPunct, hs]
  · simp [Token.isWord, Token.keyword?, hs]
  · simp [prefixOperator?, hs, prefixOps]

/-- Nothing hangs on an expression in front of a token that ends it. -/
theorem marks_of_itemEnds {t : Token} (h : t.kind ∈ itemEnds) :
  t.isAnyPunct ["<", "<<"] = false ∧ t.isPunct "(" = false
  := by
  simp only [itemEnds, List.mem_cons, List.not_mem_nil, or_false] at h
  obtain h | h | h | h := h
  all_goals simp [Token.isAnyPunct, Token.isPunct, h]

theorem notArrow_of_itemEnds {t : Token} (h : t.kind ∈ itemEnds) :
  t.isPunct "=>" = false
  := by
  simp only [itemEnds, List.mem_cons, List.not_mem_nil, or_false] at h
  obtain h | h | h | h := h
  all_goals simp [Token.isPunct, h]

theorem AtCall.isPunct_eq (hs : AtCall w s) (mark : String) :
  s.tok.isPunct mark = false
  := by
  simp [Token.isPunct, hs.word]

/-! ### Names and what hangs on them -/

theorem yields_primary_word (hc : c.typed = true) (hw : ModuleWord w)
    (hs : s.tok.kind = .word w false) (ht : (s.after s.tok).tok.isPunct "=>" = false)
    (hq : q (.node (.name w) ⟨s.tok.span.lo, (s.after s.tok).prevEnd⟩ []) (s.after s.tok)) :
  Yields (primary r c arrow) s q
  := by
  have hne : ∀ v ∈ ["this", "null", "true", "false", "function", "class"], w ≠ v := by
    intro v hv
    apply hw.ne
    revert v
    decide
  have hname : isNameToken c s.tok = true := by
    simp only [isNameToken, isWordWhere, hs, isName, isReservedIn, isReserved, hc,
      List.contains_eq_mem, hw.notReserved, hw.notModular, hw.ne (show "await" ∈ _ by decide),
      hw.ne (show "yield" ∈ _ by decide), decide_false, Bool.and_false, Bool.or_self,
      Bool.not_false, Bool.or_true, beq_eq_false_iff_ne.mpr, ne_eq, not_false_eq_true]
  have hadvance : s.tok.kind ≠ .bad := by simp [hs]
  simp only [primary, leaf, nameOrArrow, name, atName?, bind_pure_comp, anyWord, Token.word?,
    bind_map_left, bind_assoc, wordExpression, beq_iff_eq, yields_bind, yields_peek, yields_here,
    hs, Bool.false_eq_true, ↓reduceIte, List.mem_cons, String.reduceEq, List.not_mem_nil, or_self,
    or_false, hne, or_true, hw.notAsync, yields_newline?, hname, yields_node,
    yields_advance hadvance]
  simp only [eatIf]
  split
  · simp [ht, hq]
  · simp [hq]

/-- An array is read, given how its elements are. -/
theorem yields_primary_array (hs : s.tok.kind = .punct "[")
    (h : Yields (commaList "]" (arrayElement r c) r.fuel) (s.after s.tok) fun items t =>
      t.tok.kind = .punct "]" ∧
        q (.node .array ⟨s.tok.span.lo, (t.after t.tok).prevEnd⟩ [.series .list items])
          (t.after t.tok)) :
  Yields (primary r c arrow) s q
  := by
  have hopen : s.tok.isPunct "[" = true := by simp [Token.isPunct, hs]
  simp only [primary, yields_bind, yields_here, yields_peek, hs, array, yields_expect hopen]
  apply h.mono
  rintro items t ⟨ht, hq⟩
  have hclose : t.tok.isPunct "]" = true := by simp [Token.isPunct, ht]
  rw [yields_expect hclose, yields_node]
  exact hq

/-- Nothing hangs on an expression in front of a token that ends it, and no call where none may. -/
theorem yields_subscripts_done {calls indexes : Bool} {lo : Nat} {e : Tree} (hr : 0 < r.fuel)
    (hs : s.tok.kind = .punct "(" ∧ calls = false ∨ s.tok.kind ∈ itemEnds) (hq : q e s) :
  Yields (subscripts r c calls indexes lo e) s q
  := by
  obtain ⟨n, hn⟩ : ∃ n, r.fuel = n + 1 := ⟨r.fuel - 1, by omega⟩
  simp only [itemEnds, List.mem_cons, List.not_mem_nil, or_false] at hs
  rw [subscripts, hn, iterate]
  obtain ⟨h, rfl⟩ | h | h | h | h := hs
  all_goals
    simp only [subscriptStep, attemptIf, choose, Token.isPunct, h, yields_bind, yields_peek]
    simp [hq]

/-- A call is read, given how its arguments are. -/
theorem yields_callTail {lo : Nat} {link : Link} {e : Tree} {types : List Tree}
    (hs : s.tok.kind = .punct "(")
    (h : Yields (commaList ")" (spreadable r c) r.fuel) (s.after s.tok) fun items t =>
      t.tok.kind = .punct ")" ∧
        q (.node (.call link) ⟨lo, (t.after t.tok).prevEnd⟩ (e :: types ++ [.series .list items]))
          (t.after t.tok)) :
  Yields (callTail r c lo link e types) s q
  := by
  have hopen : s.tok.isPunct "(" = true := by simp [Token.isPunct, hs]
  simp only [callTail, callArguments, yields_bind, yields_expect hopen]
  apply h.mono
  rintro items t ⟨ht, hq⟩
  have hclose : t.tok.isPunct ")" = true := by simp [Token.isPunct, ht]
  simp only [yields_expect hclose, yields_pure, yields_node]
  exact hq

theorem yields_memberExpression_primary (hr : 0 < r.fuel) (hs : StartsPrimary s)
    (h : Yields (primary r c arrow) s fun e t =>
      isArrow e = false ∧ (t.tok.kind = .punct "(" ∨ t.tok.kind ∈ itemEnds) ∧ q e t) :
  Yields (memberExpression r c arrow) s q
  := by
  simp only [memberExpression, yields_bind, yields_here, yields_atWord?, yields_eatWord,
    hs.notWord "new" (by decide), hs.notWord "super" (by decide), hs.notWord "import" (by decide),
    Bool.false_eq_true, ↓reduceIte]
  apply h.mono
  rintro e t ⟨he, ht, hq⟩
  simp only [he, Bool.false_eq_true, ↓reduceIte]
  exact yields_subscripts_done hr (ht.imp_left fun ht => ⟨ht, rfl⟩) hq

theorem yields_leftHand_callExpression (hs : StartsPrimary s)
    (h : Yields (callExpression r c arrow) s q) :
  Yields (leftHand r c arrow) s q
  := by
  simpa only [leftHand, yields_bind, yields_here, yields_at?, yields_atWord?, yields_eatWord,
    hs.notMark "<" (by decide), hs.notWord "super" (by decide), hs.notWord "import" (by decide),
    Bool.and_false, Bool.false_eq_true, ↓reduceIte] using h

/-- What nothing hangs on is read as it is. -/
theorem yields_leftHand_primary (hr : 0 < r.fuel) (hs : StartsPrimary s)
    (h : Yields (primary r c arrow) s fun e t =>
      isArrow e = false ∧ isBareNew e = false ∧ t.tok.kind ∈ itemEnds ∧ q e t) :
  Yields (leftHand r c arrow) s q
  := by
  apply yields_leftHand_callExpression hs
  simp only [callExpression, yields_bind, yields_here]
  apply yields_memberExpression_primary hr hs
  apply h.mono
  rintro e t ⟨he, hnew, ht, hq⟩
  refine ⟨he, .inr ht, ?_⟩
  obtain ⟨hangle, hparen⟩ := marks_of_itemEnds ht
  simp [he, hnew, callTypes?, attemptIf, choose, hangle, hparen, hq]

/-- The call of a name is read, given how its arguments are. -/
theorem yields_leftHand_call (hc : c.typed = true) (hw : ModuleWord w) (hr : 0 < r.fuel)
    (hs : s.tok.kind = .word w false) (hopen : (s.after s.tok).tok.kind = .punct "(")
    (h : Yields (commaList ")" (spreadable r c) r.fuel)
      ((s.after s.tok).after (s.after s.tok).tok) fun items t =>
        t.tok.kind = .punct ")" ∧ (t.after t.tok).tok.kind ∈ itemEnds ∧
          q (callOf w s.tok.span.lo (s.after s.tok).prevEnd (t.after t.tok).prevEnd items)
            (t.after t.tok)) :
  Yields (leftHand r c arrow) s q
  := by
  have hparen : (s.after s.tok).tok.isPunct "(" = true := by simp [Token.isPunct, hopen]
  have hangle : (s.after s.tok).tok.isAnyPunct ["<", "<<"] = false := by
    simp [Token.isAnyPunct, hopen]
  have hstarts := startsPrimary_of_word hw hs
  apply yields_leftHand_callExpression hstarts
  simp only [callExpression, yields_bind, yields_here]
  apply yields_memberExpression_primary hr hstarts
  apply yields_primary_word hc hw hs (by simp [Token.isPunct, hopen])
  refine ⟨rfl, .inl hopen, ?_⟩
  simp only [isArrow, Tree.kind?, isBareNew, Bool.or_self, Bool.false_eq_true, ↓reduceIte,
    callTypes?, attemptIf, choose, yields_bind, yields_atAny?, hangle, Bool.and_false, yields_pure,
    yields_at?, hparen]
  apply yields_callTail hopen
  apply h.mono
  rintro items t ⟨hclose, hend, hq⟩
  exact ⟨hclose, yields_subscripts_done hr (.inr hend) hq⟩

/-! ### What ends an expression -/

theorem yields_unary_end (hs : StartsPrimary s)
    (h : Yields (r.leftHand c arrow) s fun e t =>
      isArrow e = false ∧ t.tok.kind ∈ itemEnds ∧ q e t) :
  Yields (unary r c arrow) s q
  := by
  have hupdate : s.tok.isAnyPunct ["++", "--"] = false := by
    have h := hs.notMark "++" (by decide)
    have h' := hs.notMark "--" (by decide)
    unfold Token.isPunct at h h'
    unfold Token.isAnyPunct
    split at h <;> simp_all
  simp only [unary, yields_bind, yields_here, yields_at?, hs.notMark "<" (by decide), Bool.and_false,
    hupdate, Bool.false_eq_true, ↓reduceIte, yields_atAny?]
  apply hs.notOperator.mono
  rintro op t ⟨rfl, rfl⟩
  simp only [yields_bind, yields_atWord?, hs.notWord "await" (by decide), Bool.false_eq_true,
    ↓reduceIte, yields_atAny?, yields_newline?]
  apply h.mono
  rintro e t ⟨he, ht, hq⟩
  simp only [itemEnds, List.mem_cons, List.not_mem_nil, or_false] at ht
  obtain ht | ht | ht | ht := ht
  all_goals simp [he, Token.isAnyPunct, ht, hq]

theorem yields_binary_end (hr : 0 < r.fuel)
    (h : Yields (r.unary c arrow) s fun e t =>
      isArrow e = false ∧ t.tok.kind ∈ itemEnds ∧ q e t) :
  Yields (binary r c arrow) s q
  := by
  obtain ⟨n, hn⟩ : ∃ n, r.fuel = n + 1 := ⟨r.fuel - 1, by omega⟩
  simp only [binary, hn, yields_bind, yields_here]
  apply Yields.recover
  apply h.mono
  rintro e t ⟨he, ht, hq⟩
  simp only [itemEnds, List.mem_cons, List.not_mem_nil, or_false] at ht
  have hoperator : operatorOf? c t.tok = none := by
    obtain ht | ht | ht | ht := ht
    all_goals simp [operatorOf?, Token.glue, Token.isPunct, ht, precedence?]
  obtain ht | ht | ht | ht := ht
  all_goals simp [he, binaryFrom, Token.isWord, Token.keyword?, ht, operator?, hoperator, hq]

theorem yields_plainAssignment_end (hs : s.tok.isWord "yield" = false)
    (h : ∀ arrow, Yields (binary r c arrow) s fun e t =>
      isArrow e = false ∧ t.tok.kind ∈ itemEnds ∧ q e t) :
  Yields (plainAssignment r c) s q
  := by
  simp only [plainAssignment, yields_bind, yields_here, yields_atWord?, hs, Bool.and_false,
    Bool.false_eq_true, ↓reduceIte, yields_peek, conditional]
  apply (h _).mono
  rintro e t ⟨he, ht, hq⟩
  have hquestion : t.tok.isPunct "?" = false := by
    simp only [itemEnds, List.mem_cons, List.not_mem_nil, or_false] at ht
    obtain ht | ht | ht | ht := ht
    all_goals simp [Token.isPunct, ht]
  have hassign : assignOperatorOf? t.tok = none := by
    simp only [itemEnds, List.mem_cons, List.not_mem_nil, or_false] at ht
    obtain ht | ht | ht | ht := ht
    all_goals simp [assignOperatorOf?, Token.glue, Token.isPunct, ht, assignOps]
  simp only [he, Bool.false_eq_true, ↓reduceIte, conditionalFrom, yields_bind, yields_eat,
    hquestion, yields_pure]
  split
  · exact yields_pure.mpr hq
  · simp [assignFrom, assignOperator?, hassign, hq]

theorem yields_assignment_end (hs : s.tok.isPunct "<" = false)
    (h : Yields (plainAssignment r c) s q) :
  Yields (assignment r c) s q
  := by
  simpa [assignment, peekSecond, attemptIf, choose, hs] using h

/-- An expression without operators is read up to a token that ends it. -/
theorem yields_assignment_leftHand {k : Nat} (hs : StartsPrimary s)
    (h : ∀ arrow, Yields (leftHand (rules (k + 1)) c arrow) s fun e t =>
      isArrow e = false ∧ t.tok.kind ∈ itemEnds ∧ q e t) :
  Yields ((rules (k + 4)).assignment c) s q
  := by
  change Yields (assignment (rules (k + 3)) c) _ _
  apply yields_assignment_end (hs.notMark "<" (by decide))
  apply yields_plainAssignment_end (hs.notWord "yield" (by decide))
  intro arrow
  apply yields_binary_end (Nat.succ_pos _)
  change Yields (unary (rules (k + 2)) c arrow) _ _
  apply yields_unary_end hs
  change Yields (leftHand (rules (k + 1)) c arrow) _ _
  apply (h arrow).mono
  rintro e t ⟨he, ht, hq⟩
  exact ⟨he, ht, he, ht, he, ht, hq⟩

theorem yields_expression_end
    (h : Yields (r.assignment c) s fun e t => t.tok.isPunct "," = false ∧ q e t) :
  Yields (expression r c) s q
  := by
  simp only [expression, yields_bind, yields_here]
  apply h.mono
  rintro e t ⟨ht, hq⟩
  simp [ht, hq]

/-! ### Items of lists -/

variable {close : String} {item : Parser Tree} {n : Nat} {p : List Tree → State → Prop}

theorem yields_commaList_done (hs : s.tok.isPunct close = true) (hp : p [] s) :
  Yields (commaList close item (n + 1)) s p
  := by
  simpa only [commaList, yields_bind, yields_at?, hs, ↓reduceIte, yields_pure] using hp

/-- The last item of a list is read. -/
theorem yields_commaList_last (hs : s.tok.isPunct close = false)
    (h : Yields item s fun e t => t.tok.isPunct close = true ∧ p [e] t) :
  Yields (commaList close item (n + 1)) s p
  := by
  simp only [commaList, yields_bind, yields_at?, hs, Bool.false_eq_true, ↓reduceIte]
  apply h.mono
  rintro e t ⟨ht, hp⟩
  simpa only [ht, ↓reduceIte, yields_pure] using hp

/-- An item of a list is read, and the comma and the items behind it. -/
theorem yields_commaList_item (hs : s.tok.isPunct close = false)
    (h : Yields item s fun e t => t.tok.isPunct close = false ∧ t.tok.isPunct "," = true ∧
      Yields (commaList close item n) (t.after t.tok) fun es u => p (e :: es) u) :
  Yields (commaList close item (n + 1)) s p
  := by
  simp only [commaList, yields_bind, yields_at?, hs, Bool.false_eq_true, ↓reduceIte]
  apply h.mono
  rintro e t ⟨ht, hcomma, hp⟩
  simpa only [ht, Bool.false_eq_true, ↓reduceIte, yields_bind, yields_expect hcomma, yields_pure]
    using hp

/-- An item of a list that is a name. -/
theorem yields_spreadable_name {k : Nat} (hc : c.typed = true) (hw : ModuleWord w)
    (hs : s.tok.kind = .word w false) (hend : (s.after s.tok).tok.kind ∈ itemEnds)
    (hq : q (.node (.name w) ⟨s.tok.span.lo, (s.after s.tok).prevEnd⟩ []) (s.after s.tok)) :
  Yields (spreadable (rules (k + 4)) c) s q
  := by
  have hdots : s.tok.isPunct "..." = false := by simp [Token.isPunct, hs]
  have hstarts := startsPrimary_of_word hw hs
  simp only [spreadable, yields_bind, yields_here, yields_eat, hdots, Bool.false_eq_true, ↓reduceIte]
  apply yields_assignment_leftHand hstarts
  intro arrow
  apply yields_leftHand_primary (Nat.succ_pos _) hstarts
  exact yields_primary_word hc hw hs (notArrow_of_itemEnds hend) ⟨rfl, rfl, hend, rfl, hend, hq⟩

/-- An item of a list that is an array. -/
theorem yields_spreadable_array {k : Nat} (hs : s.tok.kind = .punct "[")
    (h : Yields (commaList "]" (arrayElement (rules (k + 1))
        { c with inOperator := true, inBranch := false, beforeColon := false }) (k + 1))
      (s.after s.tok) fun items t =>
        t.tok.kind = .punct "]" ∧ (t.after t.tok).tok.kind ∈ itemEnds ∧
          q (.node .array ⟨s.tok.span.lo, (t.after t.tok).prevEnd⟩ [.series .list items])
            (t.after t.tok)) :
  Yields (spreadable (rules (k + 4)) c) s q
  := by
  have hdots : s.tok.isPunct "..." = false := by simp [Token.isPunct, hs]
  have hstarts := startsPrimary_of_bracket hs
  simp only [spreadable, yields_bind, yields_here, yields_eat, hdots, Bool.false_eq_true, ↓reduceIte]
  apply yields_assignment_leftHand hstarts
  intro arrow
  apply yields_leftHand_primary (Nat.succ_pos _) hstarts
  apply yields_primary_array hs
  apply h.mono
  rintro items t ⟨hclose, hend, hq⟩
  exact ⟨hclose, rfl, rfl, hend, rfl, hend, hq⟩

/-! ### Statements -/

/-- The call of a name is read as a statement, with the semicolon behind it, given how its arguments
are. -/
theorem yields_statementFrom_call {k : Nat} (hc : c.typed = true) (hw : ModuleWord w)
    (hs : s.tok.kind = .word w false) (hopen : (s.after s.tok).tok.kind = .punct "(")
    (h : ∀ c : Context, c.typed = true → Yields (commaList ")" (spreadable (rules (k + 1)) c) (k + 1))
      ((s.after s.tok).after (s.after s.tok).tok) fun items t =>
        let u := t.after t.tok
        t.tok.kind = .punct ")" ∧ u.tok.kind = .punct ";" ∧ anyHoldsDefault items = false ∧
          q (.node (.statement .expression) ⟨s.tok.span.lo, (u.after u.tok).prevEnd⟩
            [callOf w s.tok.span.lo (s.after s.tok).prevEnd u.prevEnd items]) (u.after u.tok)) :
  Yields (statementFrom (rules (k + 5)) c s.tok.span.lo [] true) s q
  := by
  have hstarts := startsPrimary_of_word hw hs
  have hexpression : Yields (expressionStatement (rules (k + 5)) c s.tok.span.lo []) s q := by
    simp only [expressionStatement, yields_bind]
    apply yields_expression_end
    apply yields_assignment_leftHand hstarts
    intro arrow
    apply yields_leftHand_call hc hw (Nat.succ_pos _) hs hopen
    apply (h _ hc).mono
    rintro items t ⟨hclose, hend, hdefault, hq⟩
    have hcomma : (t.after t.tok).tok.isPunct "," = false := by simp [Token.isPunct, hend]
    have hsemicolon : (t.after t.tok).tok.isPunct ";" = true := by simp [Token.isPunct, hend]
    have hends : (t.after t.tok).tok.kind ∈ itemEnds := by simp [itemEnds, hend]
    refine ⟨hclose, hends, rfl, hends, hcomma, ?_⟩
    simp only [callOf, Tree.kind?, flawIf, holdsDefault, anyHoldsDefault, hdefault, Bool.or_self,
      Bool.false_eq_true, ↓reduceIte, endExpression, endStatement, yields_bind, yields_pure,
      yields_eat, hsemicolon, yields_node]
    exact hq
  have hsecond : (s.tokenAt s.tok.span.hi s.tok.rest).kind = .punct "(" := hopen
  have hnoName : isNameToken c (s.tokenAt s.tok.span.hi s.tok.rest) = false := by
    simp [isNameToken, isWordWhere, hsecond]
  have hnoWord (v : String) : (s.tokenAt s.tok.span.hi s.tok.rest).isWord v = false := by
    simp [Token.isWord, Token.keyword?, hsecond]
  have hnone : (s.tokenAt s.tok.span.hi s.tok.rest).word? = none := by
    simp [Token.word?, hsecond]
  simp only [statementFrom, wordStatement, peekSecond, peekThird, yields_bind, yields_peek,
    yields_peekBehind, hs, hnoName, hnoWord, hnone, Option.isSome_none, Bool.and_false,
    Bool.false_and, Bool.false_eq_true, ↓reduceIte]
  -- the words that start other statements are reserved
  split
  all_goals first
    | exact hexpression
    | exact absurd rfl (hw.ne (by decide))

/-- Statements in braces are read up to the closing one. -/
theorem yields_body {t : State} {items : List Tree} (hopen : s.tok.isPunct openBrace = true)
    (hitems : collectUntil atBlockEnd? (r.statement (statementContext c) true) r.fuel
      (s.after s.tok) = .ok items t)
    (hclose : t.tok.isPunct closeBrace = true)
    (hq : q (.node (.statement .block) ⟨s.tok.span.lo, (t.after t.tok).prevEnd⟩
      [.series .block items]) (t.after t.tok)) :
  Yields (body r c) s q
  := by
  have hstop : (t.tok.kind == .stop) = false := by
    rw [beq_eq_false_iff_ne]
    intro hstop
    rw [Token.isPunct, hstop] at hclose
    contradiction
  simp only [body, yields_bind, yields_here, yields_expect hopen, yields_of_eq hitems, endBlock,
    yields_atStop?, hstop, Bool.false_eq_true, ↓reduceIte, yields_expect hclose, yields_node, hq]

/-- The context in the body of a function that is declared. -/
def functionContext (c : Context) : Context :=
  insideFunction { c with inMethod := false } false false

theorem yields_boundName (hw : ModuleWord w) (hs : s.tok.kind = .word w false)
    (hq : q (.node (.name w) ⟨s.tok.span.lo, (s.after s.tok).prevEnd⟩ []) (s.after s.tok)) :
  Yields (boundName c) s q
  := by
  have henum : s.tok.isWord "enum" = false := by
    simpa [Token.isWord, Token.keyword?, hs] using hw.ne (by decide)
  have hyield : s.tok.isWord "yield" = false := by
    simpa [Token.isWord, Token.keyword?, hs] using hw.ne (by decide)
  have hbindable : isWordWhere (isBindable c) s.tok = true := by
    have hawait : (w == "await") = false := by simpa using hw.notAwait
    simp [isWordWhere, hs, isBindable, hawait, isReserved, hw.notReserved]
  have hadvance : s.tok.kind ≠ .bad := by simp [hs]
  simp only [boundName, flawIf, henum, hyield, Bool.and_false, Bool.or_self, Bool.false_eq_true,
    ↓reduceIte, hbindable, anyWord, Token.word?, leaf, yields_bind, yields_peek, yields_pure, hs,
    yields_here, yields_advance hadvance, yields_node, hq]

/-- A list of parameters that is empty is read, and the body behind it. -/
theorem yields_functionTail {q : List Tree → State → Prop} (hr : 0 < r.fuel)
    (hparen : s.tok.kind = .punct "(") (hclose : (s.after s.tok).tok.kind = .punct ")")
    (hopen : ((s.after s.tok).after (s.after s.tok).tok).tok.isPunct openBrace = true)
    (h : Yields (r.body (insideFunction c false false))
      ((s.after s.tok).after (s.after s.tok).tok) fun b t => q [.series .list [], b] t) :
  Yields (functionTail r c true false false) s q
  := by
  obtain ⟨n, hn⟩ : ∃ n, r.fuel = n + 1 := ⟨r.fuel - 1, by omega⟩
  have hangle : s.tok.isPunct "<" = false := by simp [Token.isPunct, hparen]
  have hparen : s.tok.isPunct "(" = true := by simp [Token.isPunct, hparen]
  have hclose : (s.after s.tok).tok.isPunct ")" = true := by simp [Token.isPunct, hclose]
  have hcolon : ((s.after s.tok).after (s.after s.tok).tok).tok.isPunct ":" = false := by
    unfold Token.isPunct at hopen ⊢
    split at hopen
    · next p hp =>
      rw [beq_iff_eq.mp hopen]
      decide
    · rfl
  simp only [functionTail, typeParameters?, yields_bind, yields_at?, hangle, Bool.and_false,
    Bool.false_eq_true, ↓reduceIte, yields_pure, yields_expect hparen, formalParameters, hn,
    commaList, hclose, yields_expect hclose, hcolon, listIf, choose, functionBody, hopen]
  apply h.mono
  intro b t hq
  exact hq

/-- A function without parameters is read as a statement, with its body. -/
theorem yields_statementFrom_function (hr : 0 < r.fuel) (hw : ModuleWord w)
    (hs : s.tok.kind = .word "function" false) (hcall : AtCall w (s.after s.tok))
    (hopen : (behindCall (s.after s.tok)).tok.isPunct openBrace = true)
    (h : Yields (r.body (functionContext c)) (behindCall (s.after s.tok)) fun b t =>
      let name := (s.after s.tok).tok.span.lo
      q (.node (.declaration (.function false false)) ⟨s.tok.span.lo, t.prevEnd⟩
        [.node (.name w) ⟨name, ((s.after s.tok).after (s.after s.tok).tok).prevEnd⟩ [],
          .series .list [], b]) t) :
  Yields (statementFrom r c s.tok.span.lo [] true) s q
  := by
  have hfunction : s.tok.isWord "function" = true := by
    simp [Token.isWord, Token.keyword?, hs]
  have hadvance : s.tok.kind ≠ .bad := by simp [hs]
  have hdeclaration : Yields (functionDeclaration r c true false s.tok.span.lo) s q := by
    simp only [functionDeclaration, expectWord, yields_bind, yields_atWord?, hfunction, ↓reduceIte,
      yields_advance hadvance, yields_eat, hcall.isPunct_eq, Bool.false_eq_true, yields_pure,
      listIf, choose, atName?, Bool.true_or, yields_peek]
    apply yields_boundName hw hcall.word
    apply yields_functionTail hr hcall.opens hcall.closes hopen
    apply h.mono
    intro b t hq
    rw [yields_node]
    exact hq
  simp only [statementFrom, wordStatement, peekSecond, peekThird, yields_bind, yields_peek,
    yields_peekBehind, hs]
  simp only [Token.isWord, Token.keyword?, hs, Option.some_beq_some, String.reduceBEq,
    Bool.and_false, Bool.false_and, Bool.and_true, Bool.false_eq_true, ↓reduceIte, flawIf,
    Bool.not_true, pure_bind]
  exact hdeclaration

end Prune.Source.Grammar
