import Mathlib.Data.List.Basic
import Prune.Proofs.Program.Members
import Prune.Proofs.Source.Scripts
import Prune.Proofs.Source.Soundness

/-!
# Reading programs

A comment or a statement is closed if it is read as it is, whatever stands on the lines around it
(`Remark.Sound`, `Phrase.Closed`, `Compound.Closed`).  A program that is made of such is read as the
tree and the comments that it spells out (`Program.Closed.parseSource_eq`), by induction along its
lines: a state that awaits the text of a program is led to one that awaits what stands behind it
(`Program.Closed.yields`).
-/

namespace Prune

open Source Text Source.Parser

namespace Source

/-! ### Gaps -/

/-- The token behind a gap, of which some comments are read. -/
def Token.following (comments : List Comment) (newline : Bool) (pos : Nat) (cs : List Char) :
    Token :=
  let gap := Gap.readFrom .blank comments newline false pos cs
  Token.ofLexeme gap (readLexeme true gap.rest)

/-- Whether a module goes on with a text behind some place, where the comments before it since the
last token are known. -/
structure Parser.State.Awaits (s : State) (comments : List Comment) (pos : Nat) (cs : List Char) :
    Prop where
  modular : s.modular = true
  tok : ∃ newline, s.tok = Token.following comments newline pos cs

variable {comments : List Comment} {newline : Bool} {pos : Nat} {cs blanks : List Char}
  {s : State}

theorem Token.following_indent (h : Indent blanks) :
  following comments newline pos (blanks ++ cs)
    = following comments newline (pos + byteLength blanks) cs
  := by
  induction blanks generalizing pos with
  | nil => rfl
  | cons c blanks ih =>
      obtain ⟨hc, hblanks⟩ := List.forall_mem_cons.mp h
      have hstep : following comments newline pos (c :: (blanks ++ cs))
          = following comments newline (pos + c.utf8Size) (blanks ++ cs) := by
        obtain rfl | rfl := hc <;> rfl
      rw [List.cons_append, hstep, ih hblanks, byteLength_cons, Nat.add_assoc]

theorem Token.following_feed :
  following comments newline pos ('\n' :: cs) = following comments true (pos + 1) cs
  := rfl

theorem Gap.readFrom_line {lo : Nat} {text read rest : List Char}
    (h : ∀ c ∈ text, isLineEnd c = false) :
  readFrom (.line lo 0 read) comments newline false pos (text ++ '\n' :: rest)
    = readFrom .blank
        (⟨String.ofList (read.reverse ++ text), ⟨lo, pos + byteLength text⟩⟩ :: comments) true false
        (pos + byteLength text + 1) rest
  := by
  induction text generalizing pos read with
  | nil =>
      rw [List.append_nil]
      rfl
  | cons c text ih =>
      obtain ⟨hc, htext⟩ := List.forall_mem_cons.mp h
      rw [List.cons_append, readFrom]
      simp only [hc, Bool.false_eq_true, ↓reduceIte, Nat.lt_irrefl]
      rw [ih htext]
      simp only [List.reverse_cons, List.append_assoc, List.singleton_append, byteLength_cons,
        Nat.add_assoc]

theorem Gap.readFrom_block {lo : Nat} {body read rest : List Char} (h : ¬['*', '/'] <:+: body) :
  ∃ newline', readFrom (.block lo 0 read) comments newline false pos (body ++ '*' :: '/' :: rest)
    = readFrom .blank
        (⟨String.ofList (read.reverse ++ body), ⟨lo, pos + byteLength body + 2⟩⟩ :: comments)
        newline' false (pos + byteLength body + 2) rest
  := by
  induction body generalizing newline pos read with
  | nil =>
      refine ⟨newline, ?_⟩
      have hstar : isLineEnd '*' = false := rfl
      have hsize : '*'.utf8Size = 1 := rfl
      have hsize' : '/'.utf8Size = 1 := rfl
      simp [readFrom, push, hstar, hsize, hsize', Nat.add_assoc]
  | cons c body ih =>
      have hrest : ¬['*', '/'] <:+: body :=
        fun hmark => h (hmark.trans (List.suffix_cons c body).isInfix)
      have hclose : (c == '*' && (body ++ '*' :: '/' :: rest).head? == some '/') = false := by
        by_contra hclose
        rw [Bool.not_eq_false] at hclose
        obtain ⟨rfl, tail, htail⟩ := Elision.eq_of_mark hclose
        cases body with
        | nil => simp at htail
        | cons d body =>
            obtain ⟨rfl, -⟩ := List.cons.inj htail
            exact h ⟨[], body, rfl⟩
      obtain ⟨newline', hread⟩ := @ih (newline || isLineEnd c) (pos + c.utf8Size) (c :: read) hrest
      use newline'
      rw [List.cons_append, readFrom, if_neg (Nat.lt_irrefl 0), hclose, if_neg Bool.false_ne_true,
        hread, byteLength_cons]
      simp [Nat.add_assoc]

/-- A filler is read as it is. -/
theorem Token.following_filler {f : Filler} (hf : f.Sound) :
  ∃ newline', following comments newline pos (f.text ++ cs)
    = following ((f.comment? pos).toList ++ comments) newline' (pos + byteLength f.text) cs
  := by
  have hslash : '/'.utf8Size = 1 := rfl
  have hstar : '*'.utf8Size = 1 := rfl
  have hfeed : '\n'.utf8Size = 1 := rfl
  cases f with
  | blank c =>
      obtain rfl | rfl | rfl := hf
      · exact ⟨newline, rfl⟩
      · exact ⟨newline, rfl⟩
      · exact ⟨true, rfl⟩
  | line body =>
      have hcs : (Filler.line body).text ++ cs = '/' :: '/' :: (body ++ '\n' :: cs) := by
        simp [Filler.text]
      have hread : Gap.readFrom .blank comments newline false pos ((Filler.line body).text ++ cs)
          = Gap.readFrom (.line pos 0 []) comments newline false (pos + 1 + 1)
            (body ++ '\n' :: cs) := by
        rw [hcs]
        rfl
      have hend : pos + byteLength (Filler.line body).text = pos + 1 + 1 + byteLength body + 1 := by
        simp [Filler.text, hslash, hfeed]
        omega
      have hspan : pos + byteLength body + 2 = pos + 1 + 1 + byteLength body := by omega
      refine ⟨true, ?_⟩
      rw [following, hread, Gap.readFrom_line hf, following, hend, Filler.comment?,
        Filler.commentSpan, hspan]
      rfl
  | block body =>
      have hcs : (Filler.block body).text ++ cs = '/' :: '*' :: (body ++ '*' :: '/' :: cs) := by
        simp [Filler.text]
      have hread : Gap.readFrom .blank comments newline false pos ((Filler.block body).text ++ cs)
          = Gap.readFrom (.block pos 0 []) comments (newline || isLineEnd '*') false (pos + 1 + 1)
            (body ++ '*' :: '/' :: cs) := by
        rw [hcs]
        rfl
      have hend :
          pos + byteLength (Filler.block body).text = pos + 1 + 1 + byteLength body + 2 := by
        simp [Filler.text, hslash, hstar]
        omega
      have hspan : pos + byteLength body + 4 = pos + 1 + 1 + byteLength body + 2 := by omega
      obtain ⟨newline', hclosed⟩ := @Gap.readFrom_block comments (newline || isLineEnd '*')
        (pos + 1 + 1) pos body [] cs hf.1
      refine ⟨newline', ?_⟩
      rw [following, hread, hclosed, following, hend, Filler.comment?, Filler.commentSpan, hspan]
      rfl

theorem Token.following_fillers {fs : List Filler} (hfs : ∀ f ∈ fs, f.Sound) :
  ∃ newline', following comments newline pos (fillersText fs ++ cs)
    = following ((fillersComments pos fs).reverse ++ comments) newline'
        (pos + byteLength (fillersText fs)) cs
  := by
  induction fs generalizing comments newline pos with
  | nil => exact ⟨newline, rfl⟩
  | cons f fs ih =>
      obtain ⟨hf, hfs⟩ := List.forall_mem_cons.mp hfs
      rw [fillersText_cons, List.append_assoc]
      obtain ⟨newline', hfirst⟩ := @Token.following_filler comments newline pos
        (fillersText fs ++ cs) f hf
      obtain ⟨newline'', hrest⟩ := @ih ((f.comment? pos).toList ++ comments) newline'
        (pos + byteLength f.text) hfs
      use newline''
      rw [hfirst, hrest, fillersComments, List.reverse_append, byteLength_append, Nat.add_assoc]
      cases f.comment? pos <;> simp

theorem Parser.State.Awaits.indent (h : s.Awaits comments pos (blanks ++ cs))
    (hblanks : Indent blanks) :
  s.Awaits comments (pos + byteLength blanks) cs
  := by
  obtain ⟨newline, htok⟩ := h.tok
  exact ⟨h.modular, newline, by rw [htok, Token.following_indent hblanks]⟩

theorem Parser.State.Awaits.feed (h : s.Awaits comments pos ('\n' :: cs)) :
  s.Awaits comments (pos + 1) cs
  := by
  obtain ⟨newline, htok⟩ := h.tok
  exact ⟨h.modular, true, by rw [htok, Token.following_feed]⟩

theorem Parser.State.Awaits.fillers {fs : List Filler}
    (h : s.Awaits comments pos (fillersText fs ++ cs)) (hfs : ∀ f ∈ fs, f.Sound) :
  s.Awaits ((fillersComments pos fs).reverse ++ comments) (pos + byteLength (fillersText fs)) cs
  := by
  obtain ⟨newline, htok⟩ := h.tok
  obtain ⟨newline', hread⟩ := @Token.following_fillers comments newline pos cs fs hfs
  exact ⟨h.modular, newline', by rw [htok, hread]⟩

/-- A token is read, and what is behind it comes next. -/
theorem Parser.State.Awaits.after (h : s.Awaits comments pos cs) :
  (s.after s.tok).Awaits [] s.tok.span.hi s.tok.rest
  := by
  refine ⟨h.modular, false, ?_⟩
  rw [State.after, State.tokenAt, h.modular]
  rfl

end Source

/-! ### What a program is made of -/

/-- Whether characters are those of a comment. -/
structure Remark.Sound (r : Remark) : Prop where
  /-- The comment is read as such, and does not go on behind the line. -/
  reads (comments : List Comment) (newline : Bool) (pos : Nat) (rest : List Char) :
    Gap.readFrom .blank comments newline false pos (r.code ++ '\n' :: rest)
      = Gap.readFrom .blank (⟨r.text, ⟨pos, pos + byteLength r.code⟩⟩ :: comments) true false
          (pos + byteLength r.code + 1) rest
  /-- The comment starts with its mark. -/
  mark : r.code.head? = some '/'
  noReturn : '\r' ∉ r.code

/-- The words that a statement does not start with, but goes on with. -/
def continuations : List String :=
  ["else", "catch", "finally"]

/-- Whether characters are the first ones of a statement. -/
structure Begins (code : List Char) : Prop where
  /-- They neither are a part of a gap nor start a comment or the line that is not read. -/
  start : ∃ c cs, code = c :: cs ∧ isGap c = false ∧ c ≠ '/' ∧ c ≠ '<' ∧ c ≠ '-' ∧ c ≠ '#'
  noStop (rest : List Char) : (readLexeme true (code ++ '\n' :: rest)).kind ≠ .stop
  noClose (rest : List Char) :
    (readLexeme true (code ++ '\n' :: rest)).kind ≠ .punct Parser.closeBrace
  noContinuation (rest : List Char) (w : String) (hw : w ∈ continuations) :
    (readLexeme true (code ++ '\n' :: rest)).kind ≠ .word w false

/-- Whether a text does not go on with a word that a statement goes on with. -/
def Fresh (rest : List Char) : Prop :=
  ∀ comments newline pos, ∀ w ∈ continuations,
    (Token.following comments newline pos rest).kind ≠ .word w false

/-- What reads a statement, given some fuel. -/
abbrev Reader := Nat → Parser Tree

/-- Whether a statement is read as it is, whatever stands on the lines around it. -/
structure Phrase.Closed (read : Reader) (s : Phrase) : Prop where
  begins : Begins s.code
  noReturn : '\r' ∉ s.code
  last : s.code.getLast? ≠ some '\n'
  isNode : s.tree.isNode = true
  span : s.tree.span = ⟨0, byteLength s.code⟩
  within : s.tree.within 0 (byteLength s.code) = true
  inside : ∀ c ∈ s.comments, c.span.lo < byteLength s.code
  ordered : s.comments.Pairwise fun a b => a.span.lo < b.span.lo
  plain : ∀ c ∈ s.comments, Directive.parse c.text 0 = none
  reads (fuel : Nat) (state : State) (comments : List Comment) (pos : Nat) (rest : List Char)
    (hfuel : fuelFor s.code ≤ fuel) (hstate : state.Awaits comments pos (s.code ++ '\n' :: rest))
    (hrest : Fresh rest) :
    Yields (read fuel) state fun t state' =>
      t = s.tree.move pos ∧ state'.Awaits [] (pos + byteLength s.code) ('\n' :: rest) ∧
      state'.comments
        = (s.comments.map (Comment.move pos)).reverse ++ (comments ++ state.comments)

/-- Whether a compound statement is read as it is, given what reads the statements in it. -/
structure Compound.Closed (read inner : Reader) (f : Compound) : Prop where
  begins : Begins f.front
  closes : ∃ cs, f.back = Char.ofNat 0x7D :: cs
  noReturn : '\r' ∉ f.front ∧ '\r' ∉ f.back
  last : f.back.getLast? ≠ some '\n'
  root : ∃ kind before around after,
    f.around = .node kind 0 (byteLength f.back) before around after
  sound : f.around.sound (byteLength f.front) (byteLength f.back) = true
  reads (fuel size : Nat) (state : State) (comments : List Comment) (pos : Nat)
    (inside : List Char) (hfuel : fuelFor f.front + 8 * size ≤ fuel)
    (hstate : state.Awaits comments pos (f.front ++ '\n' :: inside)) :
    ∃ fuel' bound opened, 8 * size + 64 ≤ fuel' ∧ size < bound ∧
      opened.Awaits [] (pos + byteLength f.front) ('\n' :: inside) ∧
      opened.comments = comments ++ state.comments ∧
      ∀ items closed comments' pos' rest,
        collectUntil atBlockEnd? (inner fuel') bound opened = .ok items closed →
        closed.Awaits comments' pos' (f.back ++ '\n' :: rest) → Fresh rest →
        Yields (read fuel) state fun t state' =>
          t = f.around.fill pos pos' .block items ∧
          state'.Awaits [] (pos' + byteLength f.back) ('\n' :: rest) ∧
          state'.comments = comments' ++ closed.comments

/-- Whether a statement around a list is read as it is, whatever stands on the lines around it,
given the members that the list may have and whether holes may stand in it.  -/
structure Compound.ClosedList (read : Reader) (member : Leaf → Prop) (holes : Bool) (f : Compound) :
    Prop where
  leaf (l : Leaf) (hl : member l) : l.Sound
  begins (cells : Cells) : Begins (f.code cells)
  opens : ∃ c, f.front.getLast? = some c ∧ isBlank c = false
  closes : ∃ c cs, f.back = c :: cs ∧ isBlank c = false ∧ c ≠ ',' ∧ c ≠ '/'
  noReturn : '\r' ∉ f.front ∧ '\r' ∉ f.back
  last : f.back.getLast? ≠ some '\n'
  root : ∃ kind before around after,
    f.around = .node kind 0 (byteLength f.back) before around after
  sound : f.around.sound (byteLength f.front) (byteLength f.back) = true
  reads (fuel : Nat) (state : State) (comments : List Comment) (pos : Nat) (cells : Cells)
    (rest : List Char) (hfuel : fuelFor (f.code cells) ≤ fuel) (hcells : cells.Sound member holes)
    (hstate : state.Awaits comments pos (f.code cells ++ '\n' :: rest)) :
    Yields (read fuel) state fun t state' =>
      let inside := pos + byteLength f.front
      t = f.around.fill pos (inside + byteLength cells.text) .list (cells.trees inside) ∧
      state'.Awaits [] (pos + byteLength (f.code cells)) ('\n' :: rest) ∧
      state'.comments = (cells.comments inside).reverse ++ (comments ++ state.comments)

/-- Whether all that a program is made of is read as it is. -/
def Program.Closed (read : Reader) : Program → Prop
  | nil => True
  | blank indent next => Indent indent ∧ next.Closed read
  | remark indent r next => Indent indent ∧ r.Sound ∧ next.Closed read
  | phrase indent s next => Indent indent ∧ s.Closed read ∧ next.Closed read
  | compound indent f body foot next =>
    Indent indent ∧ Indent foot ∧ (∃ inner, f.Closed read inner ∧ body.Closed inner) ∧
      next.Closed read
  | listing indent f cells next =>
    Indent indent ∧ (∃ member holes, f.ClosedList read member holes ∧ cells.Sound member holes) ∧
      next.Closed read

/-! ### What comes next -/

section

variable {comments : List Comment} {newline : Bool} {pos : Nat} {code rest tail : List Char}
  {read : Reader} {p : Program}

theorem Begins.readFrom (h : Begins code) :
  Gap.readFrom .blank comments newline false pos (code ++ rest)
    = ⟨comments.reverse, newline, false, pos, code ++ rest⟩
  := by
  obtain ⟨c, cs, rfl, hgap, hslash, hless, hminus, -⟩ := h.start
  rw [isGap, Bool.or_eq_false_iff] at hgap
  simp [Gap.readFrom, hgap, hslash, hless, hminus]

theorem Begins.following (h : Begins code) :
  Token.following comments newline pos (code ++ rest)
    = Token.ofLexeme ⟨comments.reverse, newline, false, pos, code ++ rest⟩
        (readLexeme true (code ++ rest))
  := by
  rw [Token.following, h.readFrom]

theorem Remark.Sound.following {r : Remark} (h : r.Sound) :
  Token.following comments newline pos (r.code ++ '\n' :: rest)
    = Token.following (⟨r.text, ⟨pos, pos + byteLength r.code⟩⟩ :: comments) true
        (pos + byteLength r.code + 1) rest
  := by
  rw [Token.following, h.reads, Token.following]

theorem Source.Parser.State.Awaits.remark {r : Remark} {s : State}
    (h : s.Awaits comments pos (r.code ++ '\n' :: rest)) (hr : r.Sound) :
  s.Awaits (⟨r.text, ⟨pos, pos + byteLength r.code⟩⟩ :: comments) (pos + byteLength r.code + 1) rest
  := by
  obtain ⟨newline, htok⟩ := h.tok
  exact ⟨h.modular, true, by rw [htok, hr.following]⟩

theorem fresh_indent {blanks : List Char} (hblanks : Indent blanks) (h : Fresh rest) :
  Fresh (blanks ++ rest)
  := by
  intro comments newline pos
  rw [Token.following_indent hblanks]
  apply h

theorem fresh_feed (h : Fresh rest) :
  Fresh ('\n' :: rest)
  := by
  intro comments newline pos
  rw [Token.following_feed]
  apply h

theorem Begins.fresh (h : Begins code) :
  Fresh (code ++ '\n' :: rest)
  := by
  intro comments newline pos
  rw [h.following]
  exact h.noContinuation rest

/-- No line of a program starts with a word that a statement goes on with. -/
theorem Program.Closed.fresh (h : p.Closed read) (htail : Fresh tail) :
  Fresh (p.text ++ tail)
  := by
  induction p with
  | nil => exact htail
  | blank indent next ih =>
      obtain ⟨hindent, hnext⟩ := h
      rw [Program.text, List.append_assoc, List.cons_append]
      apply fresh_indent hindent
      apply fresh_feed (ih hnext)
  | remark indent r next ih =>
      obtain ⟨hindent, hr, hnext⟩ := h
      rw [Program.text, List.append_assoc, List.append_assoc, List.cons_append]
      apply fresh_indent hindent
      intro comments newline pos
      rw [hr.following]
      apply ih hnext
  | phrase indent s next ih =>
      obtain ⟨hindent, hs, hnext⟩ := h
      rw [Program.text, List.append_assoc, List.append_assoc, List.cons_append]
      apply fresh_indent hindent hs.begins.fresh
  | compound indent f body foot next =>
      obtain ⟨hindent, -, ⟨inner, hf, -⟩, -⟩ := h
      rw [Program.text, List.append_assoc, List.append_assoc, List.cons_append]
      apply fresh_indent hindent hf.begins.fresh
  | listing indent f cells next =>
      obtain ⟨hindent, ⟨member, holes, hf, -⟩, -⟩ := h
      rw [Program.text, List.append_assoc, List.append_assoc, List.cons_append]
      apply fresh_indent hindent (hf.begins cells).fresh

end

/-! ### Reading a program -/

/-- Whether reading statements ends in front of a text, but at no statement. -/
structure Ends (done : Parser Bool) (tail : List Char) : Prop where
  goes (s : State) (hstop : s.tok.kind ≠ .stop) (hclose : s.tok.kind ≠ .punct closeBrace) :
    done s = .ok false s
  ends (s : State) (comments : List Comment) (pos : Nat) (h : s.Awaits comments pos tail) :
    done s = .ok true s
  fresh : Fresh tail

theorem yields_collectUntil_done {done : Parser Bool} {item : Parser Tree} {s : State} {n : Nat}
    {q : List Tree → State → Prop} (h : done s = .ok true s) :
  Yields (collectUntil done item (n + 1)) s q ↔ q [] s
  := by
  rw [collectUntil, yields_bind, yields_of_eq h, if_pos rfl, yields_pure]

theorem yields_collectUntil_item {done : Parser Bool} {item : Parser Tree} {s : State} {n : Nat}
    {q : List Tree → State → Prop} (h : done s = .ok false s) :
  Yields (collectUntil done item (n + 1)) s q ↔
    Yields item s fun t s' => Yields (collectUntil done item n) s' fun ts s'' => q (t :: ts) s''
  := by
  simp only [collectUntil, yields_bind, yields_of_eq h, Bool.false_eq_true, if_false, yields_pure]

/-- Reading statements does not end in front of one. -/
theorem Ends.of_begins {done : Parser Bool} {tail code rest : List Char} {s : State}
    {comments : List Comment} {pos : Nat} (hdone : Ends done tail) (hcode : Begins code)
    (hs : s.Awaits comments pos (code ++ '\n' :: rest)) :
  done s = .ok false s
  := by
  obtain ⟨newline, htok⟩ := hs.tok
  rw [hcode.following] at htok
  apply hdone.goes
  · rw [htok]
    exact hcode.noStop rest
  · rw [htok]
    exact hcode.noClose rest

/-- The end of a text ends the statements in front of it. -/
theorem ends_of_stop :
  Ends atStop? []
  := by
  constructor
  · intro s hstop _
    have hstop : (s.tok.kind == Token.Kind.stop) = false := beq_eq_false_iff_ne.mpr hstop
    change EStateM.Result.ok (s.tok.kind == .stop) s = _
    rw [hstop]
  · intro s comments pos hs
    obtain ⟨newline, htok⟩ := hs.tok
    change EStateM.Result.ok (s.tok.kind == .stop) s = _
    rw [htok]
    rfl
  · intro comments newline pos w _
    simp [Token.following, Gap.readFrom, Token.ofLexeme, readLexeme]

/-- A brace ends the statements in front of it. -/
theorem ends_of_close {foot cs : List Char} (hfoot : Indent foot) :
  Ends atBlockEnd? (foot ++ Char.ofNat 0x7D :: cs)
  := by
  have hkind (comments : List Comment) (newline : Bool) (pos : Nat) :
      (Token.following comments newline pos (foot ++ Char.ofNat 0x7D :: cs)).kind
        = .punct closeBrace := by
    rw [Token.following_indent hfoot]
    rfl
  constructor
  · intro s hstop hclose
    have hnot : s.tok.isPunct closeBrace = false := by
      unfold Token.isPunct
      split
      · next p hp => exact beq_eq_false_iff_ne.mpr fun h => hclose (hp.trans (by rw [h]))
      · rfl
    have hstop : (s.tok.kind == Token.Kind.stop) = false := beq_eq_false_iff_ne.mpr hstop
    change EStateM.Result.ok (s.tok.isPunct closeBrace || s.tok.kind == .stop) s = _
    rw [hnot, hstop, Bool.or_false]
  · intro s comments pos hs
    obtain ⟨newline, htok⟩ := hs.tok
    have hclose : s.tok.isPunct closeBrace = true := by
      rw [htok, Token.isPunct, hkind]
      exact beq_self_eq_true closeBrace
    change EStateM.Result.ok (s.tok.isPunct closeBrace || s.tok.kind == .stop) s = _
    rw [hclose, Bool.true_or]
  · intro comments newline pos w _
    rw [hkind]
    simp

namespace Program

variable {read : Reader} {p : Program} {done : Parser Bool} {tail : List Char}

/-- Whether the statements of a program were read that stands at a byte, and what stands behind it
comes next.  The comments that were read before are known. -/
def Read (p : Program) (pos : Nat) (tail : List Char) (known : List Comment) (ts : List Tree)
    (s : State) : Prop :=
  ts = p.trees pos ∧ ∃ comments, s.Awaits comments (pos + byteLength p.text) tail ∧
    comments ++ s.comments = (p.comments pos).reverse ++ known

namespace Read

variable {pos : Nat} {known : List Comment} {ts : List Tree} {s : State} {next : Program}
  {indent foot : List Char} {m : Remark} {t : Phrase} {f : Compound} {body : Program}

theorem blank (h : next.Read (behind pos indent []) tail known ts s) :
  (blank indent next).Read pos tail known ts s
  := by
  obtain ⟨rfl, comments, hs, hcomments⟩ := h
  rw [← end_blank] at hs
  exact ⟨rfl, comments, hs, hcomments⟩

theorem remark (h : next.Read (behind pos indent m.code) tail
      (⟨m.text, ⟨pos + byteLength indent, pos + byteLength indent + byteLength m.code⟩⟩ :: known)
      ts s) :
  (remark indent m next).Read pos tail known ts s
  := by
  obtain ⟨rfl, comments, hs, hcomments⟩ := h
  rw [← end_remark] at hs
  refine ⟨rfl, comments, hs, ?_⟩
  rw [hcomments, Program.comments, List.reverse_cons, List.append_assoc]
  rfl

theorem phrase (h : next.Read (behind pos indent t.code) tail
      ((t.comments.map (Comment.move (pos + byteLength indent))).reverse ++ known) ts s) :
  (phrase indent t next).Read pos tail known (t.tree.move (pos + byteLength indent) :: ts) s
  := by
  obtain ⟨rfl, comments, hs, hcomments⟩ := h
  rw [← end_phrase] at hs
  refine ⟨rfl, comments, hs, ?_⟩
  rw [hcomments, Program.comments, List.reverse_append, List.append_assoc]

theorem compound (h : next.Read (behind (behind pos indent f.front + byteLength body.text) foot
      f.back) tail ((body.comments (behind pos indent f.front)).reverse ++ known) ts s) :
  (compound indent f body foot next).Read pos tail known
    (f.around.fill (pos + byteLength indent)
      (behind pos indent f.front + byteLength body.text + byteLength foot)
      .block (body.trees (behind pos indent f.front)) :: ts) s
  := by
  obtain ⟨rfl, comments, hs, hcomments⟩ := h
  rw [← end_compound] at hs
  refine ⟨rfl, comments, hs, ?_⟩
  rw [hcomments, Program.comments, List.reverse_append, List.append_assoc]

theorem listing {cells : Cells} (h : next.Read (behind pos indent (f.code cells)) tail
      ((cells.comments (pos + byteLength indent + byteLength f.front)).reverse ++ known) ts s) :
  (listing indent f cells next).Read pos tail known
    (f.around.fill (pos + byteLength indent)
      (pos + byteLength indent + byteLength f.front + byteLength cells.text)
      .list (cells.trees (pos + byteLength indent + byteLength f.front)) :: ts) s
  := by
  obtain ⟨rfl, comments, hs, hcomments⟩ := h
  rw [← end_listing] at hs
  refine ⟨rfl, comments, hs, ?_⟩
  rw [hcomments, Program.comments, List.reverse_append, List.append_assoc]

end Read

/-- A program is read up to what stands behind it, as the statements that it spells out. -/
theorem Closed.yields (h : p.Closed read) (hdone : Ends done tail) {fuel bound pos : Nat}
    {s : State} {comments : List Comment} (hfuel : 8 * p.text.length + 64 ≤ fuel)
    (hbound : p.text.length < bound) (hs : s.Awaits comments pos (p.text ++ tail)) :
  Yields (collectUntil done (read fuel) bound) s (p.Read pos tail (comments ++ s.comments))
  := by
  induction p generalizing read done tail fuel bound pos s comments with
  | nil =>
      cases bound with
      | zero => simp at hbound
      | succ bound =>
          rw [yields_collectUntil_done (hdone.ends s comments pos hs)]
          exact ⟨rfl, comments, hs, rfl⟩
  | blank indent next ih =>
      obtain ⟨hindent, hnext⟩ := h
      simp only [Program.text, List.append_assoc, List.cons_append] at hs
      simp only [Program.text, List.length_append, List.length_cons] at hfuel hbound
      exact (ih hnext hdone (by omega) (by omega) (hs.indent hindent).feed).mono
        fun _ _ hread => hread.blank
  | remark indent r next ih =>
      obtain ⟨hindent, hr, hnext⟩ := h
      simp only [Program.text, List.append_assoc, List.cons_append] at hs
      simp only [Program.text, List.length_append, List.length_cons] at hfuel hbound
      exact (ih hnext hdone (by omega) (by omega) ((hs.indent hindent).remark hr)).mono
        fun _ _ hread => hread.remark
  | phrase indent s next ih =>
      obtain ⟨hindent, hphrase, hnext⟩ := h
      simp only [Program.text, List.append_assoc, List.cons_append] at hs
      simp only [Program.text, List.length_append, List.length_cons] at hfuel hbound
      have hs := hs.indent hindent
      cases bound with
      | zero => omega
      | succ bound =>
          rw [yields_collectUntil_item (hdone.of_begins hphrase.begins hs)]
          refine (hphrase.reads _ _ _ _ _ ?_ hs (hnext.fresh hdone.fresh)).mono ?_
          · rw [fuelFor]
            omega
          rintro t s' ⟨rfl, hs', hcomments⟩
          refine (ih hnext hdone (by omega) (by omega) hs'.feed).mono fun ts s'' hread => ?_
          rw [List.nil_append, hcomments] at hread
          exact hread.phrase
  | compound indent f body foot next ihbody ih =>
      obtain ⟨hindent, hfoot, ⟨inner, hf, hbody⟩, hnext⟩ := h
      obtain ⟨cs, hback⟩ := hf.closes
      simp only [Program.text, List.append_assoc, List.cons_append] at hs
      simp only [Program.text, List.length_append, List.length_cons] at hfuel hbound
      have hs := hs.indent hindent
      cases bound with
      | zero => omega
      | succ bound =>
          rw [yields_collectUntil_item (hdone.of_begins hf.begins hs)]
          obtain ⟨fuel', bound', opened, hfuel', hbound', hopened, hcomments, hreads⟩ :=
            hf.reads fuel (body.text.length) s comments _ _ (by rw [fuelFor]; omega) hs
          have hclose : Ends atBlockEnd? (foot ++ (f.back ++ '\n' :: (next.text ++ tail))) := by
            rw [hback]
            exact ends_of_close hfoot
          obtain ⟨items, closed, hcollect, rfl, comments', hclosed, hcomments'⟩ :=
            ihbody hbody hclose hfuel' hbound' hopened.feed
          refine (hreads _ _ _ _ _ hcollect (hclosed.indent hfoot)
            (hnext.fresh hdone.fresh)).mono ?_
          rintro t s' ⟨rfl, hs', hcomments''⟩
          refine (ih hnext hdone (by omega) (by omega) hs'.feed).mono fun ts s'' hread => ?_
          rw [List.nil_append, hcomments'', hcomments', List.nil_append, hcomments] at hread
          exact hread.compound
  | listing indent f cells next ih =>
      obtain ⟨hindent, ⟨member, holes, hf, hcells⟩, hnext⟩ := h
      simp only [Program.text, List.append_assoc, List.cons_append] at hs
      simp only [Program.text, List.length_append, List.length_cons] at hfuel hbound
      have hs := hs.indent hindent
      cases bound with
      | zero => omega
      | succ bound =>
          rw [yields_collectUntil_item (hdone.of_begins (hf.begins cells) hs)]
          refine (hf.reads _ _ _ _ _ _ ?_ hcells hs).mono ?_
          · rw [fuelFor]
            omega
          rintro t s' ⟨rfl, hs', hcomments⟩
          refine (ih hnext hdone (by omega) (by omega) hs'.feed).mono fun ts s'' hread => ?_
          rw [List.nil_append, hcomments] at hread
          exact hread.listing

/-- What reads the statements of a whole text. -/
def items (path : String) : Reader :=
  fun fuel => (rules fuel).item { typed := true, markup := hasMarkup path }

/-- The tree and the comments of a program. -/
def parsed (p : Program) : Parsed :=
  ⟨.node .file ⟨0, byteLength p.text⟩ [.series .block (p.trees 0)], p.comments 0⟩

theorem head_indent {blanks cs : List Char} (hblanks : Indent blanks) {c : Char}
    (hc : c ∈ (blanks ++ cs).head?) :
  c = ' ' ∨ c = '\t' ∨ c ∈ cs.head?
  := by
  cases blanks with
  | nil => exact .inr (.inr hc)
  | cons d blanks =>
      obtain rfl : d = c := Option.some.inj hc
      exact or_assoc.mp (.inl (hblanks d List.mem_cons_self))

theorem begins_head {code cs : List Char} (h : Begins code) {c : Char}
    (hc : c ∈ (code ++ cs).head?) :
  c ≠ Char.ofNat 0xFEFF ∧ c ≠ '#'
  := by
  obtain ⟨d, ds, rfl, hgap, -, -, -, hne⟩ := h.start
  obtain rfl : d = c := Option.some.inj hc
  refine ⟨?_, hne⟩
  rintro rfl
  exact absurd hgap (by decide)

/-- A program starts neither with a byte order mark nor with a number sign. -/
theorem Closed.head (h : p.Closed read) {c : Char} (hc : c ∈ p.text.head?) :
  c ≠ Char.ofNat 0xFEFF ∧ c ≠ '#'
  := by
  have hblank : c = ' ' ∨ c = '\t' ∨ c = '\n' ∨ c = '/' → c ≠ Char.ofNat 0xFEFF ∧ c ≠ '#' := by
    rintro (rfl | rfl | rfl | rfl) <;> decide
  cases p with
  | nil => simp [Program.text] at hc
  | blank indent next =>
      obtain hc | hc | hc := head_indent h.1 hc
      · exact hblank (.inl hc)
      · exact hblank (.inr (.inl hc))
      · exact hblank (.inr (.inr (.inl (Option.some.inj hc).symm)))
  | remark indent r next =>
      obtain hc | hc | hc := head_indent h.1 hc
      · exact hblank (.inl hc)
      · exact hblank (.inr (.inl hc))
      · rw [List.head?_append, h.2.1.mark] at hc
        exact hblank (.inr (.inr (.inr (Option.some.inj hc).symm)))
  | phrase indent s next =>
      obtain hc | hc | hc := head_indent h.1 hc
      · exact hblank (.inl hc)
      · exact hblank (.inr (.inl hc))
      · exact begins_head h.2.1.begins hc
  | compound indent f body foot next =>
      obtain ⟨inner, hf, -⟩ := h.2.2.1
      obtain hc | hc | hc := head_indent h.1 hc
      · exact hblank (.inl hc)
      · exact hblank (.inr (.inl hc))
      · exact begins_head hf.begins hc
  | listing indent f cells next =>
      obtain ⟨member, holes, hf, -⟩ := h.2.1
      obtain hc | hc | hc := head_indent h.1 hc
      · exact hblank (.inl hc)
      · exact hblank (.inr (.inl hc))
      · exact begins_head (hf.begins cells) hc

/-- A program does not start with a byte order mark. -/
theorem Closed.not_marked (h : p.Closed read) :
  ¬Marked p.source.toList
  := by
  rw [source, String.toList_ofList]
  exact fun hmark => (h.head hmark).1 rfl

theorem Closed.withoutMark_source (h : p.Closed read) :
  withoutMark p.source.toList = p.text
  := by
  rw [withoutMark_of_not_marked h.not_marked, source, String.toList_ofList]

/-- A program has the tree and the comments that it spells out. -/
theorem Closed.parseSource_eq {path : String} (h : p.Closed (items path)) :
  parseSource p.source path = some p.parsed
  := by
  have hfirst : Token.readFirst true p.text = Token.read true true 0 p.text := by
    unfold Token.readFirst
    split
    · next heq => exact absurd rfl (h.head (by rw [heq]; rfl)).2
    · rfl
  have hstart : (Parser.start true p.text).Awaits [] 0 (p.text ++ []) := by
    rw [List.append_nil]
    exact ⟨rfl, true, hfirst⟩
  have hread : Yields (file (fuelFor p.text) (items path (fuelFor p.text)))
      (Parser.start true p.text) fun parsed _ => parsed = p.parsed := by
    rw [file, yields_bind]
    refine (h.yields ends_of_stop (Nat.le_refl _) ?_ hstart).mono ?_
    · rw [fuelFor]
      omega
    rintro ts s ⟨rfl, comments, hs, hcomments⟩
    obtain ⟨newline, htok⟩ := hs.tok
    rw [yields_bind, yields_advance (by rw [htok]; nofun)]
    simp only [yields_bind, yields_node, yields_get, yields_pure, State.after, htok]
    have hcomments' : comments ++ s.comments = (p.comments 0).reverse := by
      rw [hcomments]
      exact List.append_nil _
    simp only [Token.following, Gap.readFrom, Token.ofLexeme, readLexeme, List.reverse_reverse,
      hcomments', parsed, Nat.zero_add, Nat.add_zero]
  obtain ⟨parsed, s, hfile, rfl⟩ := hread
  simp only [parseSource, parseModule, h.withoutMark_source]
  rw [items] at hfile
  rw [hfile]

end Program

end Prune
