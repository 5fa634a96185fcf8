import Mathlib.Data.List.TakeWhile
import Prune.Proofs.Condition.Formula
import Prune.Proofs.Source.Operands

/-!
# Conditions that spell out formulas

The text of a formula is read as its expression, whatever blanks stand in it
(`Formula.Spelled.readable`), so that the condition which it is holds if and only if the value of
the formula is true (`Formula.holds_iff_value`).
-/

namespace Prune.Condition.Formula

open Source Source.Grammar Source.Parser

/-! ### The ends of spellings -/

theorem Name.plainWord (x : Name) :
  PlainWord x.text
  := plainWord_of_isIdentStart x.isIdentStart x.notKeyword

/-- Whether a text does not go on with what would belong to a word before it. -/
def Ending (rest : List Char) : Prop :=
  ∀ c ∈ rest.head?, Text.isIdentPart c = false ∧ c ≠ '\\'

theorem ending_of_blank {b rest : List Char} {c : Char} (hb : Blank b)
    (hc : Text.isIdentPart c = false ∧ c ≠ '\\') :
  Ending (b ++ c :: rest)
  := by
  intro d hd
  cases b with
  | nil =>
      obtain rfl : c = d := by simpa using hd
      exact hc
  | cons e b =>
      obtain rfl : e = d := by simpa using hd
      have he : isGap e = true := hb e List.mem_cons_self
      refine ⟨(isIdent_eq_false_of_isGap he).2, ?_⟩
      rintro rfl
      exact absurd he (by decide)

theorem Spelled.head {f : Formula} {cs : List Char} (h : Spelled f cs) :
  ∃ c cs', cs = c :: cs' ∧ (c = '(' ∨ Text.isIdentStart c = true)
  := by
  cases h with
  | name x => exact ⟨_, _, rfl, .inr x.isIdentStart⟩
  | not => exact ⟨_, _, rfl, .inl rfl⟩
  | and => exact ⟨_, _, rfl, .inl rfl⟩
  | or => exact ⟨_, _, rfl, .inl rfl⟩
  | choice => exact ⟨_, _, rfl, .inl rfl⟩

theorem Spelled.clear {f : Formula} {cs b rest : List Char} (h : Spelled f cs) (hb : Blank b) :
  Clear (b ++ cs ++ rest)
  := by
  obtain ⟨c, cs', rfl, hc⟩ := h.head
  have hhead : ∀ d ∈ (b ++ c :: cs' ++ rest).head?,
      isGap d = true ∨ d = '(' ∨ Text.isIdentStart d = true := by
    intro d hd
    cases b with
    | nil =>
        obtain rfl : c = d := by simpa using hd
        exact .inr hc
    | cons e b =>
        obtain rfl : e = d := by simpa using hd
        exact .inl (hb e List.mem_cons_self)
  intro d hd
  have hd := hhead d hd
  refine ⟨?_, ?_, ?_⟩
  all_goals
    rintro rfl
    revert hd
    decide

theorem Spelled.starts {f : Formula} {cs rest : List Char} (h : Spelled f cs)
    (hrest : Ending rest) :
  ∃ kind rest', Lexes (cs ++ rest) kind rest' ∧ StartsOperand kind
  := by
  cases h with
  | name x => exact ⟨_, _, lexes_word x.isIdentStart x.isIdentPart hrest, .word x.plainWord⟩
  | not => exact ⟨_, _, lexes_open _, .paren⟩
  | and => exact ⟨_, _, lexes_open _, .paren⟩
  | or => exact ⟨_, _, lexes_open _, .paren⟩
  | choice => exact ⟨_, _, lexes_open _, .paren⟩

/-! ### Trees of spellings -/

/-- Whether a tree spells out an expression that may stand in parentheses. -/
structure Means (x : Expr) (e : Tree) : Prop where
  expr_eq : Expr.ofTree e = x
  isSpread_eq : isSpread e = false
  holdsDefault_eq : holdsDefault e = false

/-- Whether a tree spells out an expression that is an operand. -/
structure Denotes (x : Expr) (e : Tree) : Prop extends Means x e where
  atomic : Atomic e

theorem Means.paren {x : Expr} {e : Tree} (h : Means x e) (span : Span) :
  Denotes (.paren x) (.node .paren span [e])
  := by
  refine ⟨⟨?_, rfl, ?_⟩, .paren span e⟩
  · rw [Expr.ofTree, h.expr_eq]
  · simp [holdsDefault, anyHoldsDefault, h.holdsDefault_eq]

theorem Denotes.not {x : Expr} {e : Tree} (h : Denotes x e) (span : Span) :
  Means (.unary .not x) (.node (.unary "!") span [e])
  := by
  refine ⟨?_, rfl, ?_⟩
  · simp [Expr.ofTree, UnaryOp.all, UnaryOp.text, h.expr_eq]
  · simp [holdsDefault, anyHoldsDefault, h.holdsDefault_eq]

theorem Denotes.binary {op : BinaryOp} {x y : Expr} {e f : Tree} (hop : op = .and ∨ op = .or)
    (he : Denotes x e) (hf : Denotes y f) (span : Span) :
  Means (.binary op x y) (.node (.binary op.text) span [e, f])
  := by
  refine ⟨?_, rfl, ?_⟩
  · obtain rfl | rfl := hop
    all_goals simp [Expr.ofTree, BinaryOp.all, BinaryOp.text, he.expr_eq, hf.expr_eq]
  · simp [holdsDefault, anyHoldsDefault, he.holdsDefault_eq, hf.holdsDefault_eq]

theorem Denotes.conditional {x y z : Expr} {e f g : Tree} (he : Denotes x e) (hf : Denotes y f)
    (hg : Denotes z g) (span : Span) :
  Means (.conditional x y z) (.node .conditional span [e, f, g])
  := by
  refine ⟨?_, rfl, ?_⟩
  · rw [Expr.ofTree, he.expr_eq, hf.expr_eq, hg.expr_eq]
  · simp [holdsDefault, anyHoldsDefault, he.holdsDefault_eq, hf.holdsDefault_eq,
      hg.holdsDefault_eq]

theorem rules_fuel (n : Nat) :
  (rules n).fuel = n
  := by
  cases n <;> rfl

variable {c : Context} {s : State} {x y z : Expr} {cs es rest rest' rest'' : List Char}
  {kind : Token.Kind} {m : Nat} {arrow : Bool}

/-- Whether an operand that spells out an expression is read up to a text. -/
def ReadsOperand (m : Nat) (c : Context) (s : State) (x : Expr) (rest : List Char) : Prop :=
  ∀ arrow, Yields ((rules m).unary c arrow) s fun e t => Denotes x e ∧ t.Before rest

theorem yields_assignment_operand (hc : Bare c) (hm : 0 < m)
    (hx : ReadsOperand m c s x rest) (hl : Lexes rest kind rest') (hkind : kind ∈ assignmentEnds) :
  Yields ((rules (m + 1)).assignment c) s fun e t => Denotes x e ∧ t.Before rest
  := by
  apply yields_assignment hc
  intro arrow
  apply yields_conditional_binary
  apply yields_binary_operand hc (by rwa [rules_fuel])
  apply (hx arrow).mono
  rintro e t ⟨he, ht⟩
  rw [ht.kind_eq hl]
  exact ⟨he.atomic.isArrow_eq, mem_binaryEnds hkind, he.atomic.isArrow_eq, hkind, hkind, he, ht⟩

theorem yields_assignment_not (hc : Bare c) (hs : s.tok.kind = .punct "!")
    (hx : ReadsOperand m c (s.after s.tok) x rest) (hl : Lexes rest kind rest')
    (hkind : kind ∈ assignmentEnds) :
  Yields ((rules (m + 2)).assignment c) s fun e t => Means (.unary .not x) e ∧ t.Before rest
  := by
  apply yields_assignment hc
  intro arrow
  apply yields_conditional_binary
  apply yields_binary_operand hc (Nat.succ_pos _)
  apply yields_unary_not hc hs
  apply (hx false).mono
  rintro e t ⟨he, ht⟩ span
  rw [ht.kind_eq hl]
  exact ⟨rfl, mem_binaryEnds hkind, rfl, hkind, hkind, he.not span, ht⟩

theorem yields_assignment_binary {op : BinaryOp} (hc : Bare c) (hm : 1 < m)
    (hop : op = .and ∨ op = .or)
    (hx : ReadsOperand m c s x cs) (hmark : Lexes cs (.punct op.text) rest)
    (hy : ∀ t, t.Before rest → ReadsOperand m c t y rest') (hl : Lexes rest' kind rest'')
    (hkind : kind ∈ assignmentEnds) :
  Yields ((rules (m + 1)).assignment c) s fun e t => Means (.binary op x y) e ∧ t.Before rest'
  := by
  have htext : op.text ∈ ["&&", "||"] := by
    obtain rfl | rfl := hop
    all_goals decide
  apply yields_assignment hc
  intro arrow
  apply yields_conditional_binary
  apply yields_binary hc (by rwa [rules_fuel]) htext
  apply (hx arrow).mono
  rintro left t ⟨hleft, ht⟩
  refine ⟨hleft.atomic.isArrow_eq, ht.kind_eq hmark, ?_⟩
  apply (hy _ (ht.after hmark) false).mono
  rintro right u ⟨hright, hu⟩
  rw [hu.kind_eq hl]
  refine ⟨mem_binaryEnds hkind, ?_⟩
  intro span
  exact ⟨rfl, hkind, hkind, hleft.binary hop hright span, hu⟩

theorem yields_assignment_conditional {ds : List Char} (hc : Bare c)
    (hx : ReadsOperand (m + 1) c s x cs) (hquestion : Lexes cs (.punct "?") ds)
    (hy : ∀ c' t, Bare c' → t.Before ds →
      Yields ((rules (m + 1)).assignment c') t fun e u => Denotes y e ∧ u.Before rest)
    (hcolon : Lexes rest (.punct ":") es)
    (hz : ∀ c' t, Bare c' → t.Before es →
      Yields ((rules (m + 1)).assignment c') t fun e u => Denotes z e ∧ u.Before rest')
    (hl : Lexes rest' kind rest'') (hkind : kind ∈ assignmentEnds) :
  Yields ((rules (m + 2)).assignment c) s fun e t => Means (.conditional x y z) e ∧ t.Before rest'
  := by
  apply yields_assignment hc
  intro arrow
  apply yields_conditional hc
  apply yields_binary_operand hc (Nat.succ_pos _)
  apply (hx arrow).mono
  rintro test t ⟨htest, ht⟩
  have hkind₁ := ht.kind_eq hquestion
  refine ⟨htest.atomic.isArrow_eq, by rw [hkind₁]; decide, htest.atomic.isArrow_eq, hkind₁, ?_⟩
  intro c' hc'
  apply (hy c' _ hc' (ht.after hquestion)).mono
  rintro yes u ⟨hyes, hu⟩
  refine ⟨hu.kind_eq hcolon, ?_⟩
  intro c' hc'
  apply (hz c' _ hc' (hu.after hcolon)).mono
  rintro no v ⟨hno, hv⟩ span
  rw [hv.kind_eq hl]
  exact ⟨hkind, htest.conditional hyes hno span, hv⟩

/-- Reads an expression in parentheses. -/
theorem readsOperand_parens {kind₀ : Token.Kind} {rest₀ : List Char} (hc : Bare c)
    (hs : s.Before ('(' :: cs)) (hstart : Lexes cs kind₀ rest₀)
    (hne : kind₀ ∉ [.punct ")", .punct "..."])
    (hx : ∀ c' t, Bare c' → t.Before cs → Yields ((rules (m + 1)).assignment c') t fun e u =>
      Means x e ∧ u.Before rest)
    (hclose : Lexes rest (.punct ")") rest') (hl : Lexes rest' kind rest'')
    (hkind : kind ∈ operandEnds) :
  ReadsOperand (m + 3) c s (.paren x) rest'
  := by
  intro arrow
  have hopen : s.tok.kind = .punct "(" := hs.kind_eq (lexes_open cs)
  have hin : (s.after s.tok).Before cs := hs.after (lexes_open cs)
  have hstarts : StartsOperand s.tok.kind := by
    rw [hopen]
    exact .paren
  apply yields_unary hc hstarts
  apply yields_leftHand hc (Nat.succ_pos _) hstarts
  apply yields_primary_paren hc (Nat.succ_pos _) hopen
  · intro mark hmark
    unfold Token.isPunct
    rw [hin.kind_eq hstart]
    split
    · next p =>
      rw [beq_eq_false_iff_ne]
      rintro rfl
      simp only [List.mem_cons, Token.Kind.punct.injEq, List.not_mem_nil, or_false] at hmark hne
      exact hne hmark
    · rfl
  · intro c' hc'
    apply (hx c' _ hc' hin).mono
    rintro e u ⟨he, hu⟩
    have hrest := hu.after hclose
    have hend : (u.after u.tok).tok.kind ∈ operandEnds := by
      rw [hrest.kind_eq hl]
      exact hkind
    refine ⟨he.isSpread_eq, he.holdsDefault_eq, hu.kind_eq hclose, hend, ?_⟩
    intro span
    exact ⟨.paren span e, hend, .paren span e, hend, he.paren span, hrest⟩

theorem not_mark_of_startsOperand (h : StartsOperand kind) :
  kind ∉ [.punct ")", .punct "..."]
  := by
  cases h <;> simp

/-- Whether a text is read as an operand that spells out an expression, if no part of a longer word
and the end of an operand stand behind it. -/
structure Readable (x : Expr) (cs : List Char) : Prop where
  reads : ∀ {n : Nat} {c : Context} {s : State} {kind : Token.Kind} {rest rest' : List Char},
    4 * cs.length + 4 ≤ n → Bare c → s.Before (cs ++ rest) → Ending rest →
      Lexes rest kind rest' → kind ∈ operandEnds → ReadsOperand n c s x rest

theorem readable_name (x : Name) :
  Readable (.name x.text) (x.head :: x.tail)
  := by
  constructor
  intro n c s kind rest rest' hn hc hs hend hl hkind arrow
  obtain ⟨m, rfl⟩ : ∃ m, n = m + 3 := ⟨n - 3, by omega⟩
  have hword := lexes_word x.isIdentStart x.isIdentPart hend
  have htok : s.tok.kind = .word x.text false := hs.kind_eq hword
  have hafter := hs.after hword
  have hstarts : StartsOperand s.tok.kind := by
    rw [htok]
    exact .word x.plainWord
  have hends : (s.after s.tok).tok.kind ∈ operandEnds := by
    rw [hafter.kind_eq hl]
    exact hkind
  apply yields_unary hc hstarts
  apply yields_leftHand hc (Nat.succ_pos _) hstarts
  apply yields_primary_name hc x.plainWord htok hends
  intro span
  have hdenotes : Denotes (.name x.text) (.node (.name x.text) span []) := by
    refine ⟨⟨?_, rfl, rfl⟩, .name _ _⟩
    rw [Expr.ofTree]
  exact ⟨hdenotes.atomic, hends, hdenotes.atomic, hends, hdenotes, hafter⟩

section

variable {f g h : Formula} {cs ds es b₁ b₂ b₃ b₄ b₅ b₆ : List Char}

theorem readable_not (hf : Spelled f cs) (h₁ : Blank b₁) (h₂ : Blank b₂) (h₃ : Blank b₃)
    (hx : Readable x cs) :
  Readable (.paren (.unary .not x)) ('(' :: (b₁ ++ '!' :: (b₂ ++ cs ++ (b₃ ++ [')']))))
  := by
  constructor
  intro n c s kind rest rest' hn hc hs hend hl hkind
  simp only [List.length_cons, List.length_append, List.cons_append, List.append_assoc,
    List.nil_append] at hn hs
  obtain ⟨m, rfl⟩ : ∃ m, n = m + 1 + 3 := ⟨n - 4, by omega⟩
  have hclear : Clear (b₂ ++ (cs ++ (b₃ ++ ')' :: rest))) := by
    rw [← List.append_assoc]
    exact hf.clear h₂
  have hmark := (lexes_mark "!" (by decide) hclear).blank h₁
  have hclose := (lexes_close rest).blank h₃
  refine readsOperand_parens hc hs hmark (by decide) ?_ hclose hl hkind
  intro c' t hc' ht
  have hin := (ht.after hmark).of_blank h₂
  refine yields_assignment_not hc' (ht.kind_eq hmark) ?_ hclose (by decide)
  exact hx.reads (by omega) hc' hin (ending_of_blank h₃ (by decide)) hclose (by decide)

theorem readable_binary {op : BinaryOp} (hop : op = .and ∨ op = .or) (hf : Spelled f cs)
    (hg : Spelled g ds) (h₁ : Blank b₁) (h₂ : Blank b₂) (h₃ : Blank b₃) (h₄ : Blank b₄)
    (hx : Readable x cs) (hy : Readable y ds) :
  Readable (.paren (.binary op x y))
    ('(' :: (b₁ ++ cs ++ (b₂ ++ op.text.toList ++ (b₃ ++ ds ++ (b₄ ++ [')'])))))
  := by
  constructor
  intro n c s kind rest rest' hn hc hs hend hl hkind
  simp only [List.length_cons, List.length_append, List.cons_append, List.append_assoc,
    List.nil_append] at hn hs
  obtain ⟨m, rfl⟩ : ∃ m, n = m + 3 := ⟨n - 3, by omega⟩
  have hclear : Clear (b₃ ++ (ds ++ (b₄ ++ ')' :: rest))) := by
    rw [← List.append_assoc]
    exact hg.clear h₃
  have hmark : Lexes (b₂ ++ (op.text.toList ++ (b₃ ++ (ds ++ (b₄ ++ ')' :: rest)))))
      (.punct op.text) (b₃ ++ (ds ++ (b₄ ++ ')' :: rest))) := by
    apply Lexes.blank _ h₂
    apply lexes_mark _ _ hclear
    obtain rfl | rfl := hop
    all_goals decide
  have hmarkEnd : Ending (b₂ ++ (op.text.toList ++ (b₃ ++ (ds ++ (b₄ ++ ')' :: rest))))) := by
    obtain rfl | rfl := hop
    all_goals exact ending_of_blank h₂ (by decide)
  have hmarkKind : .punct op.text ∈ operandEnds := by
    obtain rfl | rfl := hop
    all_goals decide
  have hclose := (lexes_close rest).blank h₄
  obtain ⟨kind₀, rest₀, hstart, hkind₀⟩ := hf.starts hmarkEnd
  refine readsOperand_parens hc hs (hstart.blank h₁) (not_mark_of_startsOperand hkind₀) ?_ hclose
    hl hkind
  intro c' t hc' ht
  refine yields_assignment_binary hc' (by omega) hop ?_ hmark ?_ hclose (by decide)
  · exact hx.reads (by omega) hc' (ht.of_blank h₁) hmarkEnd hmark hmarkKind
  · intro u hu
    exact hy.reads (by omega) hc' (hu.of_blank h₃) (ending_of_blank h₄ (by decide)) hclose
      (by decide)

theorem readable_choice (hf : Spelled f cs) (hg : Spelled g ds) (h₁ : Blank b₁) (h₂ : Blank b₂)
    (h₃ : Blank b₃) (h₄ : Blank b₄) (h₅ : Blank b₅) (h₆ : Blank b₆)
    (hx : Readable x cs) (hy : Readable y ds) (hz : Readable z es) :
  Readable (.paren (.conditional x y z))
    ('(' :: (b₁ ++ cs ++ (b₂ ++ '?' :: (b₃ ++ ds ++ (b₄ ++ ':' :: (b₅ ++ es ++ (b₆ ++ [')'])))))))
  := by
  constructor
  intro n c s kind rest rest' hn hc hs hend hl hkind
  simp only [List.length_cons, List.length_append, List.cons_append, List.append_assoc,
    List.nil_append] at hn hs
  obtain ⟨m, rfl⟩ : ∃ m, n = m + 1 + 3 := ⟨n - 4, by omega⟩
  have hclose := (lexes_close rest).blank h₆
  have hcolon := (lexes_colon (b₅ ++ (es ++ (b₆ ++ ')' :: rest)))).blank h₄
  have hclear : Clear (b₃ ++ (ds ++ (b₄ ++ ':' :: (b₅ ++ (es ++ (b₆ ++ ')' :: rest)))))) := by
    rw [← List.append_assoc]
    exact hg.clear h₃
  have hquestion := (lexes_mark "?" (by decide) hclear).blank h₂
  have hend₂ : Ending
      (b₂ ++ '?' :: (b₃ ++ (ds ++ (b₄ ++ ':' :: (b₅ ++ (es ++ (b₆ ++ ')' :: rest))))))) :=
    ending_of_blank h₂ (by decide)
  obtain ⟨kind₀, rest₀, hstart, hkind₀⟩ := hf.starts hend₂
  refine readsOperand_parens hc hs (hstart.blank h₁) (not_mark_of_startsOperand hkind₀) ?_ hclose
    hl hkind
  intro c' t hc' ht
  refine yields_assignment_conditional hc' ?_ hquestion ?_ hcolon ?_ hclose (by decide)
  · exact hx.reads (by omega) hc' (ht.of_blank h₁) hend₂ hquestion (by decide)
  · intro c'' u hc'' hu
    apply yields_assignment_operand hc'' (by omega) _ hcolon (by decide)
    exact hy.reads (by omega) hc'' (hu.of_blank h₃) (ending_of_blank h₄ (by decide)) hcolon
      (by decide)
  · intro c'' u hc'' hu
    apply yields_assignment_operand hc'' (by omega) _ hclose (by decide)
    exact hz.reads (by omega) hc'' (hu.of_blank h₅) (ending_of_blank h₆ (by decide)) hclose
      (by decide)

end

/-- What spells out a formula is read as its expression. -/
theorem Spelled.readable {f : Formula} (h : Spelled f cs) :
  Readable f.expr cs
  := by
  induction h with
  | name x => exact readable_name x
  | not hf h₁ h₂ h₃ ih => exact readable_not hf h₁ h₂ h₃ ih
  | and hf hg h₁ h₂ h₃ h₄ ihf ihg => 
      simpa [expr, BinaryOp.text] using readable_binary (.inl rfl) hf hg h₁ h₂ h₃ h₄ ihf ihg
  | or hf hg h₁ h₂ h₃ h₄ ihf ihg =>
      simpa [expr, BinaryOp.text] using readable_binary (.inr rfl) hf hg h₁ h₂ h₃ h₄ ihf ihg
  | choice hf hg hh h₁ h₂ h₃ h₄ h₅ h₆ ihf ihg ihh =>
      exact readable_choice hf hg h₁ h₂ h₃ h₄ h₅ h₆ ihf ihg ihh

/-! ### Conditions that are formulas -/

/-- Whether a tree is the statement of an operand that spells out an expression. -/
def States (x : Expr) (e : Tree) : Prop :=
  ∃ span e', e = .node (.statement .expression) span [e'] ∧ Denotes x e'

/-- Reads the statement that an operand in parentheses is. -/
theorem yields_statement {n : Nat} (hc : Bare c) (hn : 0 < n) (hs : s.Before ('(' :: cs))
    (hx : ∀ c', Bare c' → ReadsOperand n c' s x []) :
  Yields ((rules (n + 3)).statement c true) s fun e t =>
    States x e ∧ t.Before []
  := by
  have hopen : s.tok.kind = .punct "(" := hs.kind_eq (lexes_open cs)
  have hc' : Bare (statementContext c) := ⟨hc.typed, hc.markup, hc.inAsync, hc.inGenerator⟩
  have hexpression := yields_assignment_operand hc' hn (hx _ hc') lexes_stop (by decide)
  have hdecorators : (rules (n + 2)).decorators c = pure [] := by
    show decorators (rules (n + 1)) c = pure []
    simp [decorators, hc.typed]
  have hread : Yields ((rules (n + 2)).expression (statementContext c)) s fun e t =>
      Denotes x e ∧ t.Before [] := by
    show Yields (expression (rules (n + 1)) (statementContext c)) s _
    simp only [expression, bind_pure_comp, yields_bind, yields_at?, yields_here]
    apply hexpression.mono
    rintro e t ⟨he, ht⟩
    have hcomma : t.tok.isPunct "," = false := by simp [Token.isPunct, ht.kind_eq lexes_stop]
    simp [hcomma, he, ht]
  show Yields (statement (rules (n + 2)) c true) s _
  simp only [statement, hdecorators, statementFrom, expressionStatement, pure_bind, yields_bind,
    yields_peek, yields_here, hopen, Token.Kind.punct.injEq, String.reduceEq, imp_self]
  apply hread.mono
  rintro e t ⟨he, ht⟩
  have hkind := ht.kind_eq lexes_stop
  have hend : Yields (endExpression (rules (n + 2)) (statementContext c) s.tok.span.lo e) t
      fun e t => States x e ∧ t.Before [] := by
    simp [endExpression, endStatement, canEnd?, Token.isPunct, hkind, States, he, ht]
  cases he.atomic with
  | name text span =>
      have hcolon : t.tok.isPunct ":" = false := by simp [Token.isPunct, hkind]
      simpa [Tree.kind?, hcolon, choose, hc'.typed] using hend
  | paren span e => simpa [Tree.kind?, flawIf, he.holdsDefault_eq] using hend

theorem before_start (cs : List Char) :
  (Parser.start false ('(' :: cs)).Before ('(' :: cs)
  := ⟨⟨true, 0, rfl⟩, rfl, rfl⟩

/-- The script that an operand in parentheses is. -/
theorem parseScript_eq {text : String} (htext : text.toList = '(' :: cs)
    (hx : ∀ c s n, Bare c → s.Before ('(' :: cs) → 4 * text.length + 40 ≤ n →
      ReadsOperand n c s x []) :
  ∃ e, parseScript text = some [e] ∧ States x e
  := by
  obtain ⟨n, hn⟩ : ∃ n, fuelFor text.toList = n + 3 := by
    use fuelFor text.toList - 3
    unfold fuelFor
    omega
  have hlarge : 4 * text.length + 40 ≤ n := by
    unfold fuelFor at hn
    rw [String.length_toList] at hn
    omega
  have hc : Bare { typed := false, markup := false } := ⟨rfl, rfl, rfl, rfl⟩
  have hs := before_start cs
  have hfile : Yields
      (file (n + 3) ((rules (n + 3)).statement { typed := false, markup := false } true))
      (Parser.start false ('(' :: cs)) fun parsed t =>
        t.flawed = false ∧ ∃ e, parsed.tree.parts.flatMap Tree.parts = [e] ∧ States x e := by
    have hstop : ((Parser.start false ('(' :: cs)).tok.kind == .stop) = false := by
      rw [hs.kind_eq (lexes_open cs)]
      rfl
    rw [file, collectUntil]
    simp only [bind_pure_comp, bind_assoc, ↓Char.isValue, yields_bind, yields_map, yields_get,
      yields_node, yields_atStop?, hstop, Bool.false_eq_true, ↓reduceIte]
    apply (yields_statement hc (by omega) hs fun c' hc' => hx c' _ n hc' hs hlarge).mono
    rintro e t ⟨he, ht⟩
    have hkind := ht.kind_eq lexes_stop
    have hbad : t.tok.kind ≠ .bad := by simp [hkind]
    simp [collectUntil, hkind, yields_advance hbad, Tree.parts, (ht.after lexes_stop).flawed, he]
  obtain ⟨parsed, t, hok, hflawed, e, htree, he⟩ := hfile
  refine ⟨e, ?_, he⟩
  rw [htext] at hn
  have hmark : Text.withoutMark ('(' :: cs) = '(' :: cs := rfl
  simp only [parseScript, htext, hmark, hn, hok, hflawed, htree, Bool.false_eq_true, if_false]

theorem Spelled.trim_ne {f : Formula} {text : String} (h : Spelled f text.toList) :
  (Text.trim text).isEmpty = false
  := by
  obtain ⟨c, cs, hcs, hc⟩ := h.head
  have hblank : Text.isBlank c = false := by
    rw [Bool.eq_false_iff]
    intro hblank
    have hgap := isGap_of_isBlank hblank
    obtain rfl | hc := hc
    · exact absurd hgap (by decide)
    · rw [(isIdent_eq_false_of_isGap hgap).1] at hc
      contradiction
  have hne : Text.trimChars text.toList ≠ [] := by
    intro htrim
    rw [Text.trimChars, Text.trimEnd, hcs, List.dropWhile_cons_of_neg (by simp [hblank]),
      List.reverse_eq_nil_iff, List.dropWhile_eq_nil_iff] at htrim
    rw [htrim c (by simp)] at hblank
    contradiction
  rw [Text.trim, Bool.eq_false_iff]
  intro hempty
  rw [String.isEmpty_iff] at hempty
  have := congrArg String.toList hempty
  rw [String.toList_ofList] at this
  exact hne this

/-- A formula that is spelled out is a condition with its expression in parentheses. -/
theorem Spelled.parse_eq {f : Formula} {text : String} (h : Spelled f text.toList) :
  parse text = .ok (.paren f.expr)
  := by
  have htext : ("(" ++ text ++ "\n)").toList = '(' :: (text.toList ++ ['\n', ')']) := by
    simp
  have hblank : Blank ['\n'] := by
    intro c hc
    rw [List.mem_singleton] at hc
    rw [hc]
    decide
  have hclose : Lexes (['\n'] ++ [')']) (.punct ")") [] := (lexes_close []).blank hblank
  have hend : Ending (['\n'] ++ [')']) := ending_of_blank hblank (by decide)
  obtain ⟨kind, rest, hstart, hkind⟩ := h.starts hend
  have hoperand : ∀ c s n, Bare c → s.Before ('(' :: (text.toList ++ ['\n', ')'])) →
      4 * ("(" ++ text ++ "\n)").length + 40 ≤ n → ReadsOperand n c s (.paren f.expr) [] := by
    intro c s n hc hs hn
    rw [← String.length_toList, htext] at hn
    simp only [List.length_cons, List.length_append] at hn
    obtain ⟨m, rfl⟩ : ∃ m, n = m + 3 := ⟨n - 3, by omega⟩
    refine readsOperand_parens hc hs hstart (not_mark_of_startsOperand hkind) ?_ hclose lexes_stop
      (by decide)
    intro c' t hc' ht
    have hread := yields_assignment_operand hc' (by omega)
      (h.readable.reads (n := m) (by omega) hc' ht hend hclose (by decide)) hclose (by decide)
    apply hread.mono
    rintro e u ⟨he, hu⟩
    exact ⟨he.toMeans, hu⟩
  obtain ⟨_, hscript, span, e, rfl, he⟩ := parseScript_eq htext hoperand
  unfold parse
  rw [h.trim_ne, hscript, ← he.expr_eq]
  rfl

/-- A condition that spells out a formula holds if and only if the value of the formula is true. -/
theorem holds_iff_value {f : Formula} {text : String} (h : Spelled f text.toList)
    (symbols : Symbols) :
  holds symbols text = true ↔ f.value symbols = some true
  := by
  rw [← eval_expr, holds, evaluate, h.parse_eq]
  simp only [bind, Except.bind, Expr.eval_paren]
  cases f.expr.eval symbols with
  | error cause => simp [Except.toOption]
  | ok v => simp [Except.toOption]

/-- A name without a value does not matter where it is not looked at. -/
theorem holds_iff_value_undefined :
  ∃ f : Formula, Spelled f "(!(A && B))".toList ∧ f.value [("A", .bool false)] = some true ∧
    holds [("A", .bool false)] "(!(A && B))" = true
  := by
  let a : Name :=
    ⟨'A', [], by decide, List.forall_mem_singleton.mpr (by decide), by decide, by decide⟩
  let b : Name :=
    ⟨'B', [], by decide, List.forall_mem_singleton.mpr (by decide), by decide, by decide⟩
  have hspelled : Spelled (.not (.and (.name a) (.name b))) "(!(A && B))".toList :=
    spelled_render _
  have hvalue : (Formula.not (.and (.name a) (.name b))).value [("A", .bool false)] = some true :=
    rfl
  exact ⟨_, hspelled, hvalue, (holds_iff_value hspelled _).mpr hvalue⟩

end Prune.Condition.Formula
