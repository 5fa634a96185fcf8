import Mathlib.Data.List.Basic
import Prune.Proofs.Text.Offsets
import Prune.Source.Lexer

/-!
# Where tokens stand

The offsets that the readers of gaps and tokens count are those of the text: what a reader leaves
unread stands in the text behind the bytes it took.  This is shown for each reader
(`stands_stringFrom`, `stands_regexBody` and so on) and from there for tokens (`Token.Located`,
`Token.located_read`).  The comments of a gap stand in the text with their marks around them
(`Comment.Located`).
-/

namespace Prune.Source

open Text

variable {text cs rest : List Char} {size pos : Nat}

/-! ### Comments -/

/-- Whether a comment stands in a text at its span, its own text between the marks. -/
def Comment.Located (text : List Char) (c : Comment) : Prop :=
  ∃ mid rest, Stands text (mid ++ rest) c.span.lo ∧ c.span.hi = c.span.lo + byteLength mid ∧
    c.text.toList <:+: mid

/-- Whether a comment that starts at `lo` was read up to `pos`, where `cs` stands; `read` is the end
of what was read of it, last character first. -/
def Gap.Begun (text cs : List Char) (lo pos : Nat) (read : List Char) : Prop :=
  ∃ mid, Stands text (mid ++ cs) lo ∧ pos = lo + byteLength mid ∧ read.reverse <:+ mid

/-- What is known of the comment that is being read. A comment may start behind its mark. -/
def Gap.Mode.Located (text cs : List Char) (pos : Nat) : Gap.Mode → Prop
  | .blank => True
  | .line lo skip read =>
    (0 < skip → read = []) ∧
      (Begun text cs lo pos read ∨
        lo = pos + byteLength (cs.take skip) ∧ read = [] ∧
          ∀ c ∈ cs.take skip, isLineEnd c = false)
  | .block lo skip read => (0 < skip → read = []) ∧ Begun text cs lo pos read
  | .closing lo read =>
    ∃ mid, Stands text (mid ++ cs) lo ∧ pos = lo + byteLength mid ∧ read.reverse <:+: mid

namespace Gap

variable {lo n : Nat} {read : List Char} {c : Char} {comments : List Comment}

theorem Begun.start (h : Stands text cs pos) :
  Begun text cs pos pos []
  := ⟨[], by simpa using h⟩

/-- A character more is read, and belongs to the text of the comment. -/
theorem Begun.push (h : Begun text (c :: cs) lo pos read) :
  Begun text cs lo (pos + c.utf8Size) (c :: read)
  := by
  obtain ⟨mid, hstands, rfl, pre, rfl⟩ := h
  refine ⟨pre ++ read.reverse ++ [c], by simpa using hstands, by simp; omega, pre, by simp⟩

/-- A character more is read, and belongs to a mark. -/
theorem Begun.skip (h : Begun text (c :: cs) lo pos read) :
  Begun text cs lo (pos + c.utf8Size) []
  := by
  obtain ⟨mid, hstands, rfl, -⟩ := h
  exact ⟨mid ++ [c], by simpa using hstands, by simp [Nat.add_assoc], by simp⟩

theorem Begun.located (h : Begun text cs lo pos read) :
  Comment.Located text ⟨String.ofList read.reverse, ⟨lo, pos⟩⟩
  := by
  obtain ⟨mid, hstands, hpos, hread⟩ := h
  exact ⟨mid, cs, hstands, hpos, by simpa using hread.isInfix⟩

theorem located_push (h : Begun text cs lo pos read) (hcomments : ∀ c ∈ comments, c.Located text) :
  ∀ c ∈ Gap.push comments read lo pos, c.Located text
  := by
  intro c hc
  obtain rfl | hc := List.mem_cons.mp hc
  · apply h.located
  · apply hcomments c hc

/-- The line of a comment ends behind its mark. -/
theorem Mode.Located.begun_of_lineEnd (hc : isLineEnd c = true)
    (h : (Gap.Mode.line lo n read).Located text (c :: cs) pos) (hcs : Stands text (c :: cs) pos) :
  Begun text (c :: cs) lo pos read
  := by
  obtain ⟨-, h | ⟨rfl, rfl, hends⟩⟩ := h
  · exact h
  · cases n with
    | zero => simpa using Begun.start hcs
    | succ n => simp [hc] at hends

/-- A character more of the mark of a comment is read. -/
theorem Mode.Located.skip_line (hn : 0 < n)
    (h : (Gap.Mode.line lo n read).Located text (c :: cs) pos) :
  (Gap.Mode.line lo (n - 1) read).Located text cs (pos + c.utf8Size)
  := by
  obtain ⟨hread, h⟩ := h
  obtain rfl := hread hn
  refine ⟨fun _ => rfl, ?_⟩
  obtain h | ⟨rfl, -, hends⟩ := h
  · exact .inl h.skip
  · right
    obtain ⟨m, rfl⟩ := Nat.exists_eq_add_of_lt hn
    simp only [Nat.zero_add, List.take_succ_cons, byteLength_cons, Nat.add_sub_cancel,
      List.mem_cons, forall_eq_or_imp] at hends ⊢
    exact ⟨by omega, trivial, hends.2⟩

/-- A character more of the text of a comment is read. -/
theorem Mode.Located.push_line (hcs : Stands text (c :: cs) pos)
    (h : (Gap.Mode.line lo 0 read).Located text (c :: cs) pos) :
  (Gap.Mode.line lo 0 (c :: read)).Located text cs (pos + c.utf8Size)
  := by
  refine ⟨by simp, .inl ?_⟩
  obtain ⟨-, h | ⟨rfl, rfl, -⟩⟩ := h
  · exact h.push
  · simpa using (Begun.start hcs).push

/-- Whether a gap ends where its rest stands, not before an offset, and its comments stand in the
text. -/
structure Located (text : List Char) (pos : Nat) (gap : Gap) : Prop where
  rest : Stands text gap.rest gap.pos
  le : pos ≤ gap.pos
  comments : ∀ c ∈ gap.comments, c.Located text

theorem Located.of_add {gap : Gap} {n : Nat} (h : gap.Located text (pos + n)) :
  gap.Located text pos
  := ⟨h.rest, Nat.le_of_add_right_le h.le, h.comments⟩

theorem located_readFrom (mode : Gap.Mode) (comments : List Comment) (newline flawed : Bool)
    (hcs : Stands text cs pos) (hmode : mode.Located text cs pos)
    (hcomments : ∀ c ∈ comments, c.Located text) :
  (Gap.readFrom mode comments newline flawed pos cs).Located text pos
  := by
  fun_induction Gap.readFrom mode comments newline flawed pos cs with
  | case1 => exact ⟨hcs, Nat.le_refl _, by simpa using hcomments⟩
  | case2 comments newline pos lo n read =>
      have hbegun : Begun text [] lo pos read := by
        obtain ⟨-, h | ⟨rfl, rfl, -⟩⟩ := hmode
        · exact h
        · simpa using Begun.start hcs
      exact ⟨hcs, Nat.le_refl _, by simpa using located_push hbegun hcomments⟩
  | case3 => exact ⟨hcs, Nat.le_refl _, by simpa using hcomments⟩
  | case4 => exact ⟨hcs, Nat.le_refl _, by simpa using hcomments⟩
  | case5 comments newline pos c cs next h ih => exact (ih hcs.cons trivial hcomments).of_add
  | case6 comments newline pos c cs next _ h ih => exact (ih hcs.cons trivial hcomments).of_add
  | case7 comments newline pos c cs next _ _ h ih =>
      exact (ih hcs.cons ⟨fun _ => rfl, .inl (Begun.start hcs).skip⟩ hcomments).of_add
  | case8 comments newline pos c cs next _ _ _ h ih =>
      exact (ih hcs.cons ⟨fun _ => rfl, (Begun.start hcs).skip⟩ hcomments).of_add
  | case9 comments newline pos c cs next _ _ _ _ h ih =>
      -- the comment starts behind the first character of its mark
      simp only [Bool.and_eq_true, beq_iff_eq] at h
      obtain ⟨rfl, -⟩ := h
      exact (ih hcs.cons ⟨fun _ => rfl, .inl (Begun.start hcs.cons)⟩ hcomments).of_add
  | case10 comments newline pos c cs next _ _ _ _ _ h ih =>
      -- the comment starts behind its mark
      simp only [Bool.and_eq_true, beq_iff_eq, List.isPrefixOf_iff_prefix] at h
      obtain ⟨⟨rfl, -⟩, tail, rfl⟩ := h
      apply (ih hcs.cons ⟨fun _ => rfl, .inr ⟨?_, rfl, ?_⟩⟩ hcomments).of_add
      · rfl
      · simp [isLineEnd]
  | case11 => exact ⟨hcs, Nat.le_refl _, by simpa using hcomments⟩
  | case12 comments newline pos c cs next lo n read h ih =>
      have hbegun := hmode.begun_of_lineEnd h hcs
      exact (ih hcs.cons trivial (located_push hbegun hcomments)).of_add
  | case13 comments newline pos c cs next lo n read h hn ih =>
      exact (ih hcs.cons (hmode.skip_line hn) hcomments).of_add
  | case14 comments newline pos c cs next lo n read h hn ih =>
      obtain rfl : n = 0 := by omega
      exact (ih hcs.cons (hmode.push_line hcs) hcomments).of_add
  | case15 comments newline pos c cs next lo n read newline' hn ih =>
      obtain rfl := hmode.1 hn
      exact (ih hcs.cons ⟨fun _ => rfl, hmode.2.skip⟩ hcomments).of_add
  | case16 comments newline pos c cs next lo n read newline' hn h ih =>
      obtain ⟨mid, hstands, hpos, hread⟩ := hmode.2.push
      refine (ih hcs.cons ⟨mid, hstands, hpos, ?_⟩ hcomments).of_add
      rw [List.reverse_cons] at hread
      exact (List.prefix_append _ _).isInfix.trans hread.isInfix
  | case17 comments newline pos c cs next lo n read newline' hn h ih =>
      exact (ih hcs.cons ⟨by simp, hmode.2.push⟩ hcomments).of_add
  | case18 comments newline pos c cs next lo read ih =>
      obtain ⟨mid, hstands, hpos, hread⟩ := hmode
      refine (ih hcs.cons trivial ?_).of_add
      intro comment hc
      obtain rfl | hc := List.mem_cons.mp hc
      · refine ⟨mid ++ [c], cs, by simpa using hstands, by simp [next, hpos]; omega, ?_⟩
        simpa using hread.trans (List.prefix_append mid [c]).isInfix
      · apply hcomments comment hc

theorem located_read (newline : Bool) (hcs : Stands text cs pos) :
  (Gap.read newline pos cs).Located text pos
  := by
  apply located_readFrom .blank _ _ _ hcs trivial (by simp)

/-- Nothing is read where neither a blank nor a comment starts. -/
theorem comments_read_cons (newline : Bool) {c : Char} (hend : isLineEnd c = false)
    (hblank : isGapBlank c = false) (hc : c ≠ '/' ∧ c ≠ '<' ∧ c ≠ '-') :
  (Gap.read newline pos (c :: cs)).comments = []
  := by
  simp [Gap.read, Gap.readFrom, hend, hblank, hc]

end Gap

/-! ### Texts, templates and regular expressions -/

theorem stands_stringFrom (quote : Char) (skip : Nat) (units : List Nat)
    (h : Stands text cs size) :
  Stands text (stringFrom quote size skip units cs).rest (stringFrom quote size skip units cs).size
  := by
  fun_induction stringFrom quote size skip units cs <;> grind [Stands.cons]

theorem stands_pieceFrom {skip : Nat} {units : Option (List Nat)} {piece : Piece}
    (h : Stands text cs size) (hpiece : Piece.readFrom size skip units cs = some piece) :
  Stands text piece.rest piece.size
  := by
  fun_induction Piece.readFrom size skip units cs with
  | case1 => simp at hpiece
  | case2 size skip units c cs next hskip ih => exact ih h.cons hpiece
  | case3 size skip units c cs next hskip hc =>
      cases hpiece
      exact h.cons
  | case4 size skip units c cs next hskip hc hhole =>
      cases hpiece
      simp only [Bool.and_eq_true, beq_iff_eq] at hhole
      obtain ⟨tail, rfl⟩ := List.head?_eq_some_iff.mp hhole.2
      exact h.cons.cons
  | case5 size skip units c cs next hskip hc hhole hslash us n hescape ih => exact ih h.cons hpiece
  | case6 size skip units c cs next hskip hc hhole hslash u n hescape ih => exact ih h.cons hpiece
  | case7 size skip units c cs next hskip hc hhole hslash hescape ih => exact ih h.cons hpiece
  | case8 size skip units c cs next hskip hc hhole hslash hreturn ih => exact ih h.cons hpiece
  | case9 size skip units c cs next hskip hc hhole hslash hreturn ih => exact ih h.cons hpiece

theorem stands_piece {piece : Piece} (h : Piece.read cs = some piece) :
  Stands cs piece.rest piece.size
  := by
  apply stands_pieceFrom (Stands.zero cs) h

theorem stands_regexBody {escaped inClass : Bool} {n : Nat} (h : Stands text cs size)
    (hbody : regexBody size escaped inClass cs = some (rest, n)) :
  Stands text rest n
  := by
  fun_induction regexBody size escaped inClass cs <;> grind [Stands.cons]

theorem drop_length_takeWhile (p : Char → Bool) (cs : List Char) :
  cs.drop (cs.takeWhile p).length = cs.dropWhile p
  := by
  induction cs with
  | nil => rfl
  | cons c cs ih => cases h : p c <;> simp [h, ih]

/-- What follows a run of characters stands behind it. -/
theorem stands_drop_takeWhile (p : Char → Bool) (cs : List Char) :
  Stands cs (cs.drop (cs.takeWhile p).length) (byteLength (cs.takeWhile p))
  := by
  use cs.takeWhile p
  rw [drop_length_takeWhile, List.takeWhile_append_dropWhile]
  exact ⟨rfl, rfl⟩

theorem stands_regexEnd {n : Nat} {flawed : Bool} (h : regexEnd cs = some (rest, n, flawed)) :
  Stands cs rest n
  := by
  obtain ⟨⟨rest', n'⟩, hbody, heq⟩ := Option.map_eq_some_iff.mp h
  have hrest := stands_regexBody (Stands.zero cs) hbody
  simp only [Prod.mk.injEq] at heq
  obtain ⟨rfl, rfl, -⟩ := heq
  apply hrest.trans
  split
  · apply stands_drop_takeWhile
  · apply Stands.zero

theorem stands_openRegex (cs : List Char) :
  Stands cs (openRegex cs).1 (openRegex cs).2
  := stands_drop_takeWhile _ _

theorem stands_markupText (cs : List Char) :
  Stands cs (markupText cs).1 (markupText cs).2
  := stands_drop_takeWhile _ _

/-- The text of markup ends before a less sign or a brace. -/
theorem head_markupText {c : Char} (h : (markupText cs).1 = c :: rest) :
  c = '<' ∨ c = Char.ofNat 0x7B
  := by
  have hdrop : cs.dropWhile (fun c => !(c == '<' || c.toNat == 0x7B)) = c :: rest := by
    rw [← drop_length_takeWhile]
    exact h
  have hc := List.head?_dropWhile_not (fun c => !(c == '<' || c.toNat == 0x7B)) cs
  rw [hdrop] at hc
  simp only [List.head?_cons, Bool.not_eq_false', Bool.or_eq_true, beq_iff_eq] at hc
  refine hc.imp_right fun hc => ?_
  rw [← hc, Char.ofNat_toNat]

theorem stands_markupNameTail (cs : List Char) :
  Stands cs (markupNameTail cs).2.1 (markupNameTail cs).2.2
  := stands_drop_takeWhile _ _

theorem stands_markupString {quote : Char} {n : Nat} (hquote : quote.utf8Size = 1)
    (h : markupString quote cs = some (rest, n)) :
  Stands cs rest n
  := by
  have hdrop := stands_drop_takeWhile (· != quote) cs
  rw [markupString] at h
  split at h
  · simp at h
  · next c rest' heq =>
      -- the run ends at the quote
      have hc : c = quote := by
        have hhead := List.head?_dropWhile_not (· != quote) cs
        rw [← drop_length_takeWhile, heq] at hhead
        simpa using hhead
      cases h
      rw [heq] at hdrop
      have hrest := hdrop.cons
      rwa [hc, hquote] at hrest

/-! ### Words -/

/-- What a word leaves stands behind it, and its text is not longer than it. -/
theorem stands_wordFrom {skip : Nat} {escaped flawed : Bool} {read : List Char}
    (h : Stands text cs size) (hread : read.length ≤ size) :
  match wordFrom size skip escaped flawed read cs with
  | .ok word => Stands text word.rest word.size ∧ word.text.length ≤ word.size
  | .error (rest, n) => Stands text rest n
  := by
  fun_induction wordFrom size skip escaped flawed read cs with
  | case1 => simpa using ⟨h, hread⟩
  | case2 size skip escaped flawed read c cs next hskip ih =>
      exact ih h.cons (by omega)
  | case3 size skip escaped flawed read c cs next hskip hpart ih =>
      have := c.utf8Size_pos
      exact ih h.cons (by simp; omega)
  | case4 size skip escaped flawed read c ds next hskip hpart hslash n count hpoint d fits ih =>
      have := c.utf8Size_pos
      exact ih h.cons (by simp; omega)
  | case5 => exact h.cons
  | case6 => exact h.cons
  | case7 => simpa using ⟨h, hread⟩

/-! ### Lexemes -/

/-- Whether a lexeme was read at the front of a text: what it leaves stands behind it, a word is not
longer than what spells it, and a mark stands there as it is. -/
structure Lexeme.Located (cs : List Char) (l : Lexeme) : Prop where
  rest : Stands cs l.rest l.size
  word : ∀ w plain, l.kind = .word w plain → w.length ≤ l.size
  punct : ∀ p, l.kind = .punct p → p.toList <+: cs ∧ 0 < l.size

theorem located_readWord (modular : Bool) (cs : List Char) :
  (readWord modular cs).Located cs
  := by
  have h := @stands_wordFrom cs cs 0 0 false false [] (Stands.zero cs) (by simp)
  unfold readWord
  split
  · next heq =>
      rw [heq] at h
      exact ⟨h, by simp, by simp⟩
  · next word heq =>
      rw [heq] at h
      exact ⟨h.1, by grind, by grind⟩

theorem suffix_digitRun (base : Nat) (cs : List Char) :
  (digitRun base cs).2.1 <:+ cs
  := List.drop_suffix _ _

theorem suffix_readExponent {value : Int} {flawed : Bool}
    (h : readExponent cs = some (value, rest, flawed)) :
  rest <:+ cs
  := by
  rw [readExponent] at h
  split at h
  · extract_lets signed negative unsigned at h
    have hunsigned : unsigned <:+ cs := by
      have htail := List.tail_suffix cs
      unfold unsigned
      split
      · exact (List.tail_suffix _).trans htail
      · exact htail
    have hrun := suffix_digitRun 10 unsigned
    grind [List.IsSuffix.trans]
  · cases h
    apply List.suffix_refl

/-- The literal of a number ends where its digits do, whether or not a letter follows it. -/
theorem located_finishNumber {kind : Token.Kind} {flawed : Bool} (h : rest <:+ cs)
    (hword : ∀ w plain, kind ≠ .word w plain) (hpunct : ∀ p, kind ≠ .punct p) :
  (finishNumber cs rest kind flawed).Located cs
  := by
  unfold finishNumber
  split
  · split
    · exact ⟨.of_suffix h, by simp, by simp⟩
    · exact ⟨.of_suffix h, by simp [hword], by simp [hpunct]⟩
  · exact ⟨.of_suffix h, by simp [hword], by simp [hpunct]⟩

theorem located_readRadix (base : Nat) (cs : List Char) :
  (readRadix base cs).Located cs
  := by
  have hrun := (suffix_digitRun base (cs.drop 2)).trans (List.drop_suffix 2 cs)
  simp only [readRadix]
  split
  · exact ⟨.of_suffix hrun, by simp, by simp⟩
  · split
    · exact located_finishNumber ((List.tail_suffix _).trans hrun) (by simp) (by simp)
    · exact located_finishNumber hrun (by simp) (by simp)

/-- The digits behind the point of a number, if there is one. -/
theorem suffix_fraction (cs : List Char) :
  (if cs.head? == some '.' then digitRun 10 cs.tail else ([], cs, false)).2.1 <:+ cs
  := by
  split
  · exact (suffix_digitRun 10 cs.tail).trans (List.tail_suffix cs)
  · apply List.suffix_refl

theorem located_readDecimal (cs : List Char) :
  (readDecimal cs).Located cs
  := by
  have hrun := suffix_digitRun 10 cs
  simp only [readDecimal]
  split
  · exact located_finishNumber hrun (by simp) (by simp)
  · split
    · exact located_finishNumber ((List.tail_suffix _).trans hrun) (by simp) (by simp)
    · have hfraction := (suffix_fraction (digitRun 10 cs).2.1).trans hrun
      split
      · exact ⟨.of_suffix hfraction, by simp, by simp⟩
      · next hexponent =>
          have hrest := (suffix_readExponent hexponent).trans hfraction
          exact located_finishNumber hrest (by simp) (by simp)

theorem located_readNumber (cs : List Char) :
  (readNumber cs).Located cs
  := by
  unfold readNumber
  split
  · split
    · apply located_readRadix
    · split
      · apply located_readRadix
      · split
        · apply located_readRadix
        · apply located_readDecimal
  · apply located_readDecimal

/-- The marks of more than one character take a byte for each. -/
theorem byteLength_punct :
  ∀ p ∈ longPuncts ++ greaterPuncts, byteLength p.toList = p.length ∧ 0 < p.length
  := by
  decide

theorem utf8Size_shortPunct :
  ∀ c ∈ shortPuncts, c.utf8Size = 1
  := by
  have h : shortPuncts.all (fun c => c.utf8Size == 1) = true := by decide
  simpa using h

theorem stands_drop_of_prefix (h : rest <+: cs) :
  Stands cs (cs.drop rest.length) (byteLength rest)
  := by
  obtain ⟨tail, rfl⟩ := h
  use rest
  simp

theorem stands_drop_punct {p : String} (hp : p ∈ longPuncts ++ greaterPuncts)
    (h : p.toList <+: cs) :
  Stands cs (cs.drop p.length) p.length ∧ 0 < p.length
  := by
  obtain ⟨hsize, hpos⟩ := byteLength_punct p hp
  have hdrop := stands_drop_of_prefix h
  rw [hsize, String.length_toList] at hdrop
  exact ⟨hdrop, hpos⟩

theorem located_readPunct (cs : List Char) :
  (readPunct cs).Located cs
  := by
  simp only [readPunct]
  split
  · next p hfind =>
      have hmem := List.mem_of_find?_eq_some hfind
      have hstart : p.toList <+: cs := by
        have := List.find?_some hfind
        simp only [Bool.and_eq_true, List.isPrefixOf_iff_prefix] at this
        exact this.1
      obtain ⟨hrest, hpos⟩ := stands_drop_punct (List.mem_append_left _ hmem) hstart
      refine ⟨hrest, by simp, ?_⟩
      rintro q ⟨⟩
      exact ⟨hstart, hpos⟩
  · split
    · next _ c rest _ =>
        split
        · next hc =>
            have hsize := utf8Size_shortPunct c (List.contains_iff_mem.mp hc)
            have hrest := (Stands.zero (c :: rest)).cons
            rw [hsize] at hrest
            refine ⟨hrest, by simp, ?_⟩
            rintro p ⟨⟩
            simp
        · exact ⟨by simpa using (Stands.zero (c :: rest)).cons, by simp, by simp⟩
    · exact ⟨Stands.zero [], by simp, by simp⟩

theorem kind_stringFrom (quote : Char) (size skip : Nat) (units : List Nat) (cs : List Char) :
  (∃ value, (stringFrom quote size skip units cs).kind = .string value) ∨
    (stringFrom quote size skip units cs).kind = .bad
  := by
  fun_induction stringFrom quote size skip units cs <;> simp_all

/-- The characters of ASCII take one byte. -/
theorem utf8Size_of_toNat {c : Char} (h : c.toNat < 128) :
  c.utf8Size = 1
  := by
  rw [Char.utf8Size, if_pos]
  exact UInt32.le_iff_toNat_le.mpr (Nat.le_of_lt_succ h)

theorem utf8Size_of_isQuote {c : Char} (h : (c == '"' || c.toNat == 0x27) = true) :
  c.utf8Size = 1
  := by
  simp only [Bool.or_eq_true, beq_iff_eq] at h
  obtain rfl | h := h
  · rfl
  · apply utf8Size_of_toNat
    omega

theorem located_readBackquote {c : Char} (hsize : c.utf8Size = 1) (cs : List Char) :
  (readBackquote cs).Located (c :: cs)
  := by
  unfold readBackquote
  split
  · exact ⟨⟨[c], by simp [hsize]⟩, by simp, by simp⟩
  · exact ⟨⟨c :: cs, by simp [hsize]⟩, by simp, by simp⟩

theorem located_readLexeme (modular : Bool) (cs : List Char) :
  (readLexeme modular cs).Located cs
  := by
  unfold readLexeme
  split
  · exact ⟨Stands.zero [], by simp, by simp⟩
  · next c rest =>
      split
      · apply located_readWord
      · split
        · apply located_readNumber
        · split
          · next hquote =>
              have hrest : Stands (c :: rest) rest 1 := ⟨[c], by simp [utf8Size_of_isQuote hquote]⟩
              have hkind := kind_stringFrom c 1 0 [] rest
              exact ⟨stands_stringFrom c 0 [] hrest, by grind, by grind⟩
          · split
            · next hquote =>
                apply located_readBackquote
                apply utf8Size_of_toNat
                rw [eq_of_beq hquote]
                decide
            · apply located_readPunct

/-! ### Tokens -/

/-- Whether a token stands in a text at its span. A mark that is no comma stands there as it is; a
comma may be taken for granted. -/
structure Token.Located (text : List Char) (t : Token) : Prop where
  front : Stands text t.front t.span.lo
  rest : Stands text t.rest t.span.hi
  le : t.span.lo ≤ t.span.hi
  word : ∀ w plain, t.kind = .word w plain → t.span.lo + w.length ≤ t.span.hi
  punct : ∀ p, t.kind = .punct p → p ≠ "," → p.toList <+: t.front ∧ t.span.lo < t.span.hi
  comments : ∀ c ∈ t.comments, c.Located text

theorem Token.located_ofLexeme {gap : Gap} {lexeme : Lexeme} (hgap : gap.Located text pos)
    (hlexeme : lexeme.Located gap.rest) :
  (Token.ofLexeme gap lexeme).Located text
  := by
  refine ⟨hgap.rest, hgap.rest.trans hlexeme.rest, Nat.le_add_right _ _, ?_, ?_, hgap.comments⟩
  · intro w plain hkind
    exact Nat.add_le_add_left (hlexeme.word w plain hkind) _
  · intro p hkind _
    obtain ⟨hfront, hpos⟩ := hlexeme.punct p hkind
    exact ⟨hfront, Nat.lt_add_of_pos_right hpos⟩

/-- A token that is read stands in the text. -/
theorem Token.located_read (modular newline : Bool) (hcs : Stands text cs pos) :
  (Token.read modular newline pos cs).Located text
  := by
  apply located_ofLexeme (Gap.located_read newline hcs)
  apply located_readLexeme

theorem Token.le_read (modular newline : Bool) (hcs : Stands text cs pos) :
  pos ≤ (Token.read modular newline pos cs).span.lo
  := (Gap.located_read newline hcs).le

/-- Operators that start with a greater sign stand where it stands. -/
theorem Token.Located.glue {t : Token} (h : t.Located text) :
  t.glue.Located text
  := by
  unfold Token.glue
  split
  · split
    · next p hfind =>
        have hmem := List.mem_of_find?_eq_some hfind
        have hstart : p.toList <+: t.front := by
          simpa using List.find?_some hfind
        obtain ⟨hrest, hpos⟩ := stands_drop_punct (List.mem_append_right _ hmem) hstart
        refine ⟨h.front, h.front.trans hrest, Nat.le_add_right _ _, by simp, ?_, h.comments⟩
        rintro q ⟨⟩ _
        exact ⟨hstart, Nat.lt_add_of_pos_right hpos⟩
    · exact h
  · exact h

theorem Token.kind_of_isPunct {t : Token} {p : String} (h : t.isPunct p = true) :
  t.kind = .punct p
  := by
  unfold Token.isPunct at h
  split at h
  · next hkind => rw [hkind, eq_of_beq h]
  · simp at h

/-- The first character of a mark stands where the mark stands, if it takes one byte. -/
theorem Token.Located.cut {t : Token} {c : Char} {cs : List Char} (h : t.Located text)
    (hfront : t.front = c :: cs) (hsize : c.utf8Size = 1) :
  t.cut.Located text
  := by
  have hstands := h.front
  rw [hfront] at hstands
  have hrest := hstands.cons
  rw [hsize] at hrest
  unfold Token.cut
  rw [hfront]
  refine ⟨hstands, hrest, Nat.le_add_right _ _, by simp, ?_, h.comments⟩
  rintro p ⟨⟩ _
  simp

end Prune.Source
