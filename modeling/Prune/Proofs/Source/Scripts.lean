import Mathlib.Data.List.Basic
import Prune.Proofs.Text.Offsets
import Prune.Source.Parse

/-!
# Reading scripts that are known

What a script reads from a text that is known, token by token.  `Lexes text kind rest` says that the
text starts with a token of some kind in front of `rest`, whatever blanks stand before it
(`Lexes.blank`).  `Parser.Yields p s q` says that the parser `p` does not fail in the state `s` and
that what it gives satisfies `q`.  A state that is `Before` a text has its first token to read next,
and is before the rest when that token is read (`Parser.State.Before.after`).
-/

namespace Prune.Source

/-! ### Tokens -/

/-- Whether a script reads a token of some kind from a text, and what it leaves. -/
structure Lexes (text : List Char) (kind : Token.Kind) (rest : List Char) : Prop where
  kind_eq : ∀ newline pos, (Token.read false newline pos text).kind = kind
  rest_eq : ∀ newline pos, (Token.read false newline pos text).rest = rest
  flawed_eq : ∀ newline pos, (Token.read false newline pos text).flawed = false

/-- Whether a character stands between tokens. -/
def isGap (c : Char) : Bool := isLineEnd c || isGapBlank c

/-- Whether a text has nothing in it but blanks and ends of lines. -/
def Blank (cs : List Char) : Prop :=
  ∀ c ∈ cs, isGap c = true

/-- The token behind blanks is the one that is read without them at some place. -/
theorem Token.read_blank {blanks : List Char} (h : Blank blanks) (text : List Char)
    (newline : Bool) (pos : Nat) :
  ∃ newline' pos',
    Token.read false newline pos (blanks ++ text) = Token.read false newline' pos' text
  := by
  unfold Token.read Gap.read
  induction blanks generalizing newline pos with
  | nil => exact ⟨newline, pos, rfl⟩
  | cons c blanks ih =>
      obtain ⟨hc, hblanks⟩ := List.forall_mem_cons.mp h
      rw [List.cons_append, Gap.readFrom]
      split
      · exact ih hblanks _ _
      · next hline =>
        rw [isGap, Bool.eq_false_iff.mpr hline, Bool.false_or] at hc
        rw [if_pos hc]
        exact ih hblanks _ _

theorem Lexes.blank {blanks text rest : List Char} {kind : Token.Kind} (h : Lexes text kind rest)
    (hblanks : Blank blanks) :
  Lexes (blanks ++ text) kind rest
  := by
  constructor
  all_goals
    intro newline pos
    obtain ⟨newline', pos', hread⟩ := Token.read_blank hblanks text newline pos
    rw [hread]
  · exact h.kind_eq newline' pos'
  · exact h.rest_eq newline' pos'
  · exact h.flawed_eq newline' pos'

theorem Lexes.intro {text rest : List Char} {kind : Token.Kind} (size : Nat)
    (hgap : ∀ newline pos, Gap.read newline pos text = ⟨[], newline, false, pos, text⟩)
    (h : readLexeme false text = { kind := kind, rest := rest, size := size }) :
  Lexes text kind rest
  := by
  constructor
  all_goals
    intro newline pos
    rw [Token.read, hgap, h]
    rfl

theorem wordFrom_append {word rest : List Char} (hword : ∀ c ∈ word, Text.isIdentPart c = true)
    (hrest : ∀ c ∈ rest.head?, Text.isIdentPart c = false ∧ c ≠ '\\') (size : Nat)
    (text : List Char) :
  wordFrom size 0 false false text (word ++ rest)
    = .ok ⟨String.ofList (text.reverse ++ word), false, rest, size + Text.byteLength word, false⟩
  := by
  induction word generalizing size text with
  | nil =>
      cases rest with
      | nil => simp [wordFrom]
      | cons c rest =>
        obtain ⟨hpart, hne⟩ := hrest c rfl
        simp [wordFrom, hpart, hne]
  | cons c word ih =>
      obtain ⟨hc, hword⟩ := List.forall_mem_cons.mp hword
      have h := ih hword (size + c.utf8Size) (c :: text)
      simpa [wordFrom, hc, Nat.add_assoc] using h

theorem isGap_iff {c : Char} :
  isGap c = true ↔
    (9 ≤ c.toNat ∧ c.toNat ≤ 13) ∨ c.toNat = 0x20 ∨ c.toNat = 0x85 ∨ c.toNat = 0xA0 ∨
    c.toNat = 0x1680 ∨ (0x2000 ≤ c.toNat ∧ c.toNat ≤ 0x200B) ∨ c.toNat = 0x2028 ∨
    c.toNat = 0x2029 ∨ c.toNat = 0x202F ∨ c.toNat = 0x205F ∨ c.toNat = 0x3000 ∨ c.toNat = 0xFEFF
  := by
  have hn : c = '\n' ↔ c.toNat = 10 := Char.toNat_inj.symm
  have hr : c = '\r' ↔ c.toNat = 13 := Char.toNat_inj.symm
  simp only [isGap, isLineEnd, isGapBlank, Bool.or_eq_true, beq_iff_eq, Bool.and_eq_true,
    decide_eq_true_eq, hn, hr]
  omega

theorem isIdent_eq_false_of_isGap {c : Char} (h : isGap c = true) :
  Text.isIdentStart c = false ∧ Text.isIdentPart c = false
  := by
  have hcodes : ∀ n ∈ [9, 10, 11, 12, 13, 0x20, 0x85, 0xA0, 0x1680, 0x2028, 0x2029, 0x202F, 0x205F,
      0x3000, 0xFEFF] ++ List.range' 0x2000 12,
      Text.isIdentStart (Char.ofNat n) = false ∧ Text.isIdentPart (Char.ofNat n) = false := by
    decide +kernel
  have hc := hcodes c.toNat
  rw [Char.ofNat_toNat] at hc
  apply hc
  rw [isGap_iff] at h
  simp only [List.cons_append, List.nil_append, List.mem_cons, List.mem_range'_1]
  omega

theorem isGap_of_isBlank {c : Char} (h : Text.isBlank c = true) :
  isGap c = true
  := by
  simp only [Text.isBlank, Bool.or_eq_true, beq_iff_eq, Bool.and_eq_true, decide_eq_true_eq] at h
  rw [isGap_iff]
  omega

theorem ne_of_isIdentStart {c d : Char} (hc : Text.isIdentStart c = true)
    (hd : Text.isIdentStart d = false) :
  c ≠ d
  := by
  rintro rfl
  rw [hd] at hc
  contradiction

theorem isGap_of_isIdentStart {c : Char} (hc : Text.isIdentStart c = true) :
  isGap c = false
  := by
  rw [Bool.eq_false_iff]
  intro hgap
  rw [(isIdent_eq_false_of_isGap hgap).1] at hc
  contradiction

theorem readLexeme_word (modular : Bool) {c : Char} {word rest : List Char}
    (hc : Text.isIdentStart c = true) (hword : ∀ d ∈ c :: word, Text.isIdentPart d = true)
    (hrest : ∀ d ∈ rest.head?, Text.isIdentPart d = false ∧ d ≠ '\\') :
  readLexeme modular (c :: word ++ rest)
    = ⟨.word (String.ofList (c :: word)) false, rest, Text.byteLength (c :: word), false⟩
  := by
  have h := wordFrom_append hword hrest 0 []
  have hlexeme : readLexeme modular (c :: word ++ rest) = readWord modular (c :: word ++ rest) := by
    rw [List.cons_append, readLexeme, hc]
    rfl
  have hescape : c ≠ '\\' := ne_of_isIdentStart hc (by decide)
  rw [hlexeme, readWord, h]
  simp [hescape]

/-- A gap ends in front of a word. -/
theorem readFrom_of_isIdentStart {c : Char} (hc : Text.isIdentStart c = true)
    (comments : List Comment) (newline flawed : Bool) (pos : Nat) (cs : List Char) :
  Gap.readFrom .blank comments newline flawed pos (c :: cs)
    = ⟨comments.reverse, newline, flawed, pos, c :: cs⟩
  := by
  have hgap := isGap_of_isIdentStart hc
  rw [isGap, Bool.or_eq_false_iff] at hgap
  have hslash : c ≠ '/' := ne_of_isIdentStart hc (by decide)
  have hless : c ≠ '<' := ne_of_isIdentStart hc (by decide)
  have hminus : c ≠ '-' := ne_of_isIdentStart hc (by decide)
  simp [Gap.readFrom, hgap, hslash, hless, hminus]

theorem lexes_word {c : Char} {word rest : List Char} (hc : Text.isIdentStart c = true)
    (hword : ∀ d ∈ c :: word, Text.isIdentPart d = true)
    (hrest : ∀ d ∈ rest.head?, Text.isIdentPart d = false ∧ d ≠ '\\') :
  Lexes (c :: word ++ rest) (.word (String.ofList (c :: word)) false) rest
  := by
  apply Lexes.intro _ _ (readLexeme_word false hc hword hrest)
  intro newline pos
  exact readFrom_of_isIdentStart hc [] newline false pos (word ++ rest)

/-- Whether a text does not go on with what would make a longer mark of the one before it. -/
def Clear (rest : List Char) : Prop :=
  ∀ c ∈ rest.head?, c ≠ '=' ∧ c ≠ '?' ∧ c ≠ '.'

theorem lexes_open (rest : List Char) :
  Lexes ('(' :: rest) (.punct "(") rest
  := Lexes.intro 1 (fun _ _ => rfl) rfl

theorem lexes_close (rest : List Char) :
  Lexes (')' :: rest) (.punct ")") rest
  := Lexes.intro 1 (fun _ _ => rfl) rfl

theorem lexes_colon (rest : List Char) :
  Lexes (':' :: rest) (.punct ":") rest
  := Lexes.intro 1 (fun _ _ => rfl) rfl

theorem lexes_stop :
  Lexes [] .stop []
  := Lexes.intro 0 (fun _ _ => rfl) rfl

/-- A mark of one character or two, if the text behind it makes no longer one of it. -/
theorem lexes_mark (mark : String) {rest : List Char}
    (hmark : mark ∈ ["!", "?", "&&", "||"]) (hrest : Clear rest) :
  Lexes (mark.toList ++ rest) (.punct mark) rest
  := by
  cases rest with
  | nil =>
      simp only [List.mem_cons, List.not_mem_nil, or_false] at hmark
      obtain rfl | rfl | rfl | rfl := hmark
      all_goals exact Lexes.intro _ (fun _ _ => rfl) rfl
  | cons c rest =>
      obtain ⟨hequal, hquestion, hpoint⟩ := hrest c rfl
      have h₁ : ('=' == c) = false := beq_eq_false_iff_ne.mpr hequal.symm
      have h₂ : ('?' == c) = false := beq_eq_false_iff_ne.mpr hquestion.symm
      have h₃ : ('.' == c) = false := beq_eq_false_iff_ne.mpr hpoint.symm
      have hpunct : readPunct (mark.toList ++ c :: rest)
          = { kind := .punct mark, rest := c :: rest, size := mark.length } := by
        simp only [List.mem_cons, List.not_mem_nil, or_false] at hmark
        obtain rfl | rfl | rfl | rfl := hmark
        all_goals
          simp [readPunct, longPuncts, shortPuncts, List.find?, List.isPrefixOf, h₁, h₂, h₃]
          rfl
      simp only [List.mem_cons, List.not_mem_nil, or_false] at hmark
      obtain rfl | rfl | rfl | rfl := hmark
      all_goals exact Lexes.intro _ (fun _ _ => rfl) hpunct

/-! ### Parsers that succeed -/

namespace Parser

variable {α β : Type} {p : Parser α} {s : State} {q : α → State → Prop}

/-- Whether a parser does not fail, and gives what satisfies `q`. -/
def Yields (p : Parser α) (s : State) (q : α → State → Prop) : Prop :=
  ∃ a t, p s = .ok a t ∧ q a t

theorem Yields.mono {q' : α → State → Prop} (h : Yields p s q) (hq : ∀ a t, q a t → q' a t) :
  Yields p s q'
  := by
  obtain ⟨a, t, hp, ha⟩ := h
  exact ⟨a, t, hp, hq a t ha⟩

@[simp]
theorem yields_bind {k : α → Parser β} {q : β → State → Prop} :
  Yields (p >>= k) s q ↔ Yields p s fun a t => Yields (k a) t q
  := by
  unfold Yields
  simp only [bind, EStateM.bind]
  cases hp : p s with
  | ok a t => simp
  | error _ t => simp

@[simp]
theorem yields_map {f : α → β} {q : β → State → Prop} :
  Yields (f <$> p) s q ↔ Yields p s fun a t => q (f a) t
  := by
  unfold Yields
  simp only [Functor.map, EStateM.map]
  cases hp : p s with
  | ok a t => simp
  | error _ t => simp

theorem yields_of_eq {a : α} {t : State} (h : p s = .ok a t) :
  Yields p s q ↔ q a t
  := by
  simp [Yields, h]

@[simp]
theorem yields_pure {a : α} :
  Yields (pure a) s q ↔ q a s
  := yields_of_eq rfl

@[simp]
theorem yields_peek {q : Token → State → Prop} :
  Yields peek s q ↔ q s.tok s
  := yields_of_eq rfl

@[simp]
theorem yields_get {q : State → State → Prop} :
  Yields get s q ↔ q s s
  := yields_of_eq rfl

@[simp]
theorem yields_peekBehind {t : Token} {q : Token → State → Prop} :
  Yields (peekBehind t) s q ↔ q (s.tokenAt t.span.hi t.rest) s
  := yields_of_eq rfl

@[simp]
theorem yields_here {q : Nat → State → Prop} :
  Yields here s q ↔ q s.tok.span.lo s
  := yields_of_eq rfl

@[simp]
theorem yields_prevEnd {q : Nat → State → Prop} :
  Yields prevEnd s q ↔ q s.prevEnd s
  := yields_of_eq rfl

@[simp]
theorem yields_node {kind : Kind} {lo : Nat} {parts : List Tree} {q : Tree → State → Prop} :
  Yields (node kind lo parts) s q ↔ q (.node kind ⟨lo, s.prevEnd⟩ parts) s
  := yields_of_eq rfl

@[simp]
theorem yields_at? {text : String} {q : Bool → State → Prop} :
  Yields (at? text) s q ↔ q (s.tok.isPunct text) s
  := yields_of_eq rfl

@[simp]
theorem yields_atAny? {texts : List String} {q : Bool → State → Prop} :
  Yields (atAny? texts) s q ↔ q (s.tok.isAnyPunct texts) s
  := yields_of_eq rfl

@[simp]
theorem yields_atWord? {text : String} {q : Bool → State → Prop} :
  Yields (atWord? text) s q ↔ q (s.tok.isWord text) s
  := yields_of_eq rfl

@[simp]
theorem yields_newline? {q : Bool → State → Prop} :
  Yields newline? s q ↔ q s.tok.newline s
  := yields_of_eq rfl

@[simp]
theorem yields_atStop? {q : Bool → State → Prop} :
  Yields atStop? s q ↔ q (s.tok.kind == .stop) s
  := yields_of_eq rfl

theorem yields_take {t : Token} {q : Unit → State → Prop} (h : t.kind ≠ .bad) :
  Yields (take t) s q ↔ q () (s.after t)
  := by
  rw [take]
  split
  · contradiction
  · exact yields_of_eq rfl

theorem yields_advance {q : Unit → State → Prop} (h : s.tok.kind ≠ .bad) :
  Yields advance s q ↔ q () (s.after s.tok)
  := by
  rw [advance, yields_bind, yields_peek, yields_take h]

theorem not_bad_of_isPunct {t : Token} {text : String} (h : t.isPunct text = true) :
  t.kind ≠ .bad
  := by
  intro hbad
  simp [Token.isPunct, hbad] at h

theorem not_bad_of_isWord {t : Token} {text : String} (h : t.isWord text = true) :
  t.kind ≠ .bad
  := by
  intro hbad
  simp [Token.isWord, Token.keyword?, hbad] at h

@[simp]
theorem yields_eat {text : String} {q : Bool → State → Prop} :
  Yields (eat text) s q ↔
    if s.tok.isPunct text = true then q true (s.after s.tok) else q false s
  := by
  rw [eat, yields_bind, yields_at?]
  split
  · next h => rw [yields_bind, yields_advance (not_bad_of_isPunct h), yields_pure]
  · rw [yields_pure]

@[simp]
theorem yields_eatWord {text : String} {q : Bool → State → Prop} :
  Yields (eatWord text) s q ↔
    if s.tok.isWord text = true then q true (s.after s.tok) else q false s
  := by
  rw [eatWord, yields_bind, yields_atWord?]
  split
  · next h => rw [yields_bind, yields_advance (not_bad_of_isWord h), yields_pure]
  · rw [yields_pure]

theorem yields_expect {text : String} {q : Unit → State → Prop}
    (h : s.tok.isPunct text = true) :
  Yields (expect text) s q ↔ q () (s.after s.tok)
  := by
  rw [expect, yields_bind, yields_at?, if_pos h, yields_advance (not_bad_of_isPunct h)]

theorem Yields.recover {q : Option α → State → Prop} (h : Yields p s fun a t => q (some a) t) :
  Yields (recover p) s q
  := by
  obtain ⟨a, t, hp, ha⟩ := h
  exact ⟨some a, t, by rw [Parser.recover, hp], ha⟩

end Parser

/-- Whether a state is about to read a text, as that of a script without flaws so far. -/
structure Parser.State.Before (text : List Char) (s : Parser.State) : Prop where
  read : ∃ newline pos, s.tok = Token.read false newline pos text
  flawed : s.flawed = false
  modular : s.modular = false

namespace Parser.State.Before

variable {text rest : List Char} {kind : Token.Kind} {s : State}

theorem kind_eq (h : s.Before text) (hl : Lexes text kind rest) :
  s.tok.kind = kind
  := by
  obtain ⟨newline, pos, htok⟩ := h.read
  rw [htok, hl.kind_eq]

theorem after (h : s.Before text) (hl : Lexes text kind rest) :
  (s.after s.tok).Before rest
  := by
  obtain ⟨newline, pos, htok⟩ := h.read
  have hrest : s.tok.rest = rest := by rw [htok, hl.rest_eq]
  have hflawed : s.tok.flawed = false := by rw [htok, hl.flawed_eq]
  constructor
  · exact ⟨false, s.tok.span.hi, by rw [State.after, State.tokenAt, hrest, h.modular]⟩
  · rw [State.after, h.flawed, hflawed, Bool.or_false]
  · exact h.modular

theorem of_blank {blanks : List Char} (h : s.Before (blanks ++ text)) (hblanks : Blank blanks) :
  s.Before text
  := by
  obtain ⟨newline, pos, htok⟩ := h.read
  obtain ⟨newline', pos', hread⟩ := Token.read_blank hblanks text newline pos
  exact ⟨⟨newline', pos', by rw [htok, hread]⟩, h.flawed, h.modular⟩

end Parser.State.Before

end Prune.Source
