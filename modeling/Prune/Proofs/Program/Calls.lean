import Mathlib.Data.List.Basic
import Prune.Proofs.Program.Reading
import Prune.Proofs.Source.Calls

/-!
# Calls in programs

Statements that call a name with a list (`Compound.call`), or with an array of such
(`Compound.callArray`).  The members of these lists are names, and anything may stand between them
that may between tokens.  They are read as they are, whatever stands on the lines around them
(`Compound.call_closed`, `Compound.callArray_closed`), by induction along the places of the list
(`Cells.yields`).
-/

namespace Prune

open Source Text Source.Parser Source.Grammar

/-! ### Names -/

/-- A name in modules, other than the word that may start a function. -/
structure Identifier where
  head : Char
  tail : List Char
  isIdentStart : Text.isIdentStart head = true
  isIdentPart : ∀ c ∈ head :: tail, Text.isIdentPart c = true
  notKeyword : String.ofList (head :: tail) ∉ reservedWords ++ moduleWords ++ ["async"]

namespace Identifier

variable (x : Identifier)

/-- The characters of a name. -/
def code : List Char :=
  x.head :: x.tail

/-- The text of a name. -/
def text : String :=
  String.ofList x.code

theorem moduleWord :
  ModuleWord x.text
  := by
  have hkeyword := x.notKeyword
  simp only [List.mem_append, not_or] at hkeyword
  obtain ⟨⟨hreserved, hmodular⟩, hasync⟩ := hkeyword
  refine ⟨plainWord_of_isIdentStart x.isIdentStart ?_, hmodular⟩
  simp only [List.mem_append, List.mem_cons, List.not_mem_nil, or_false, not_or] at hasync ⊢
  refine ⟨hreserved, hasync, fun hawait => hmodular ?_⟩
  rw [hawait]
  decide

/-- A name is read in front of what is no part of it. -/
theorem readLexeme_eq {rest : List Char}
    (hrest : ∀ d ∈ rest.head?, Text.isIdentPart d = false ∧ d ≠ '\\') :
  readLexeme true (x.code ++ rest) = ⟨.word x.text false, rest, byteLength x.code, false⟩
  := readLexeme_word true x.isIdentStart x.isIdentPart hrest

theorem noReturn :
  '\r' ∉ x.code
  := by
  intro hreturn
  have hpart := x.isIdentPart _ hreturn
  revert hpart
  decide

/-- No character of a name is blank. -/
theorem not_blank {c : Char} (hc : c ∈ x.code) :
  isBlank c = false
  := by
  have hpart := x.isIdentPart c hc
  have hblanks : ∀ n ∈ [0x20, 0x85, 0xA0, 0x1680, 0x2028, 0x2029, 0x202F, 0x205F, 0x3000]
      ++ List.range' 9 5 ++ List.range' 0x2000 11, Text.isIdentPart (Char.ofNat n) = false := by
    decide +kernel
  by_contra hblank
  have hc := hblanks c.toNat
  rw [Char.ofNat_toNat, hpart] at hc
  simp only [isBlank, Bool.not_eq_false, Bool.or_eq_true, Bool.and_eq_true, decide_eq_true_eq,
    beq_iff_eq] at hblank
  apply absurd (hc _)
  · simp
  · simp only [List.mem_append, List.mem_cons, List.mem_range'_1, List.not_mem_nil]
    omega

/-- A name as the member of a list. -/
def leaf : Leaf :=
  ⟨x.code, .name x.text⟩

theorem leaf_sound :
  x.leaf.Sound
  where
    ne := List.cons_ne_nil _ _
    ink := fun _ => x.not_blank
    notHole := nofun
    notFrame := rfl

end Identifier

/-! ### Tokens -/

variable {s : State} {comments : List Comment} {pos : Nat} {cs rest : List Char} {read : Reader}

/-- A token is read that no gap is in front of. -/
theorem Source.Parser.State.Awaits.reads (kind : Token.Kind) (size : Nat)
    (h : s.Awaits comments pos cs)
    (hgap : ∀ newline, Gap.readFrom .blank comments newline false pos cs
      = ⟨comments.reverse, newline, false, pos, cs⟩)
    (hlexeme : readLexeme true cs = ⟨kind, rest, size, false⟩) :
  s.tok.kind = kind ∧ s.tok.span.lo = pos ∧ (s.after s.tok).Awaits [] (pos + size) rest ∧
    (s.after s.tok).prevEnd = pos + size ∧ (s.after s.tok).comments = comments ++ s.comments
  := by
  obtain ⟨newline, htok⟩ := h.tok
  have hbehind : Token.following comments newline pos cs
      = ⟨kind, ⟨pos, pos + size⟩, newline, comments.reverse, cs, rest, false⟩ := by
    rw [Token.following, hgap, hlexeme]
    rfl
  rw [hbehind] at htok
  have hafter := h.after
  rw [htok] at hafter ⊢
  refine ⟨rfl, rfl, hafter, rfl, ?_⟩
  rw [State.after, List.reverse_reverse]

/-- Whether a character is a token that may stand behind a name, with no gap in front of it. -/
structure Mark (c : Char) (mark : String) : Prop where
  gap (comments : List Comment) (newline : Bool) (pos : Nat) (cs : List Char) :
    Gap.readFrom .blank comments newline false pos (c :: cs)
      = ⟨comments.reverse, newline, false, pos, c :: cs⟩
  lexeme (cs : List Char) : readLexeme true (c :: cs) = ⟨.punct mark, cs, 1, false⟩
  notPart : Text.isIdentPart c = false ∧ c ≠ '\\'

theorem mark_comma : Mark ',' "," :=
  ⟨fun _ _ _ _ => rfl, fun _ => rfl, by decide⟩

theorem mark_open : Mark '(' "(" :=
  ⟨fun _ _ _ _ => rfl, fun _ => rfl, by decide⟩

theorem mark_close : Mark ')' ")" :=
  ⟨fun _ _ _ _ => rfl, fun _ => rfl, by decide⟩

theorem mark_openBracket : Mark '[' "[" :=
  ⟨fun _ _ _ _ => rfl, fun _ => rfl, by decide⟩

theorem mark_bracket : Mark ']' "]" :=
  ⟨fun _ _ _ _ => rfl, fun _ => rfl, by decide⟩

/-- A mark is read. -/
theorem Source.Parser.State.Awaits.readsMark {c : Char} {mark : String}
    (h : s.Awaits comments pos (c :: rest)) (hc : Mark c mark) :
  s.tok.kind = .punct mark ∧ s.tok.span.lo = pos ∧ (s.after s.tok).Awaits [] (pos + 1) rest ∧
    (s.after s.tok).prevEnd = pos + 1 ∧ (s.after s.tok).comments = comments ++ s.comments
  := h.reads _ _ (fun _ => hc.gap _ _ _ _) (hc.lexeme rest)

/-- What is read of a name in front of fillers and a mark. -/
structure ReadsName (x : Identifier) (trail : List Filler) (mark : String)
    (comments : List Comment) (pos : Nat) (rest : List Char) (s : State) : Prop where
  word : s.tok.kind = .word x.text false
  lo : s.tok.span.lo = pos
  hi : (s.after s.tok).prevEnd = pos + byteLength x.code
  next : (s.after s.tok).tok.kind = .punct mark
  behind : (s.after s.tok).Awaits (fillersComments (pos + byteLength x.code) trail).reverse
    (pos + byteLength x.code + byteLength (fillersText trail)) rest
  comments : (s.after s.tok).comments = comments ++ s.comments

/-- What stands behind a name is no part of it. -/
theorem head_fillers {trail : List Filler} {c : Char} {mark : String}
    (htrail : ∀ f ∈ trail, f.Sound) (hc : Mark c mark) :
  ∀ d ∈ (fillersText trail ++ c :: rest).head?, Text.isIdentPart d = false ∧ d ≠ '\\'
  := by
  cases trail with
  | nil =>
      rintro d ⟨⟩
      exact hc.notPart
  | cons f trail =>
      have hf := htrail f List.mem_cons_self
      rw [fillersText_cons]
      cases f with
      | blank b =>
          rintro d ⟨⟩
          obtain rfl | rfl | rfl := hf <;> decide
      | line body =>
          rintro d ⟨⟩
          decide
      | block body =>
          rintro d ⟨⟩
          decide

theorem Source.Parser.State.Awaits.readsName {x : Identifier} {trail : List Filler} {c : Char}
    {mark : String} (h : s.Awaits comments pos (x.code ++ (fillersText trail ++ c :: rest)))
    (htrail : ∀ f ∈ trail, f.Sound) (hc : Mark c mark) :
  ReadsName x trail mark comments pos (c :: rest) s
  := by
  obtain ⟨hword, hlo, hbehind, hhi, hcomments⟩ := h.reads _ _
    (fun newline => readFrom_of_isIdentStart x.isIdentStart _ newline _ _ _)
    (x.readLexeme_eq (head_fillers htrail hc))
  have hbehind := hbehind.fillers htrail
  rw [List.append_nil] at hbehind
  exact ⟨hword, hlo, hhi, (hbehind.readsMark hc).1, hbehind, hcomments⟩

/-! ### Lists -/

/-- Whether a member of a list is a name. -/
def IsName (l : Leaf) : Prop :=
  ∃ x : Identifier, l = x.leaf

theorem IsName.sound {l : Leaf} (h : IsName l) :
  l.Sound
  := by
  obtain ⟨x, rfl⟩ := h
  exact x.leaf_sound

/-- Whether the items of a list are read if they are names, or holes where there may be some. -/
structure ReadsItems (item : Parser Tree) (holes : Bool) : Prop where
  name {w : String} {s : State} {q : Tree → State → Prop} (hw : ModuleWord w)
    (hs : s.tok.kind = .word w false) (hend : (s.after s.tok).tok.kind ∈ itemEnds)
    (hq : q (.node (.name w) ⟨s.tok.span.lo, (s.after s.tok).prevEnd⟩ []) (s.after s.tok)) :
    Yields item s q
  hole {s : State} {q : Tree → State → Prop} (hholes : holes = true)
    (hs : s.tok.kind = .punct ",")
    (hq : q (.node .hole ⟨s.tok.span.lo, s.tok.span.lo⟩ []) s) : Yields item s q

namespace Cells

variable {cells : Cells} {c : Cell} {member : Leaf → Prop} {holes : Bool} {item : Parser Tree}
  {close : String} {mark : Char} {known : List Comment} {ts : List Tree} {n : Nat}

/-- Whether the members and holes of a list were read that stands at a byte, and what stands behind
it comes next.  The comments that were read before are known.  -/
def Read (cells : Cells) (pos : Nat) (rest : List Char) (known : List Comment) (ts : List Tree)
    (s : State) : Prop :=
  ts = cells.trees pos ∧ ∃ comments, s.Awaits comments (pos + byteLength cells.text) rest ∧
    comments ++ s.comments = (cells.comments pos).reverse ++ known

/-- The comments in a place of a list where no member stands. -/
theorem comments_empty (hleaf : c.leaf? = none) (pos : Nat) :
  (c.slot pos).comments pos = fillersComments pos (c.lead ++ c.trail)
  := by
  simp [Slot.comments, Cell.slot, hleaf, fillersComments_append]

theorem text_empty (hleaf : c.leaf? = none) :
  c.text = fillersText (c.lead ++ c.trail)
  := by
  simp [Cell.text, hleaf, fillersText_append]

/-- A place of a list is read in front of a mark that ends it. -/
theorem yields_cell {d : Char} {ends : String} (hitem : ReadsItems item holes)
    (hfillers : ∀ f ∈ c.lead ++ c.trail, f.Sound) (hname : ∀ l ∈ c.leaf?, IsName l)
    (hhole : c.leaf? = none → holes = true ∧ ends = ",") (hd : Mark d ends)
    (hends : .punct ends ∈ itemEnds) (hclose : close ≠ ",")
    (hs : s.Awaits comments pos (c.text ++ d :: rest)) :
  s.tok.isPunct close = false ∧
    Yields item s fun t s' => t = c.tree pos ∧ s'.tok.kind = .punct ends ∧
      ∃ comments', s'.Awaits comments' (pos + byteLength c.text) (d :: rest) ∧
        comments' ++ s'.comments = ((c.slot pos).comments pos).reverse ++ (comments ++ s.comments)
  := by
  cases hleaf : c.leaf? with
  | none =>
      obtain ⟨hholes, rfl⟩ := hhole hleaf
      rw [text_empty hleaf] at hs ⊢
      rw [comments_empty hleaf]
      have hs := hs.fillers hfillers
      have hread := hs.readsMark hd
      constructor
      · simpa [Token.isPunct, hread.1] using Ne.symm hclose
      apply hitem.hole hholes hread.1
      refine ⟨?_, hread.1, _, hs, List.append_assoc _ _ _⟩
      rw [Cell.tree, hleaf, hread.2.1, text_empty hleaf]
  | some l =>
      obtain ⟨x, rfl⟩ := hname l hleaf
      obtain ⟨hlead, htrail⟩ := List.forall_mem_append.mp hfillers
      have htext : c.text ++ d :: rest
          = fillersText c.lead ++ (x.code ++ (fillersText c.trail ++ d :: rest)) := by
        simp [Cell.text, hleaf, Identifier.leaf]
      rw [htext] at hs
      have hread := (hs.fillers hlead).readsName htrail hd
      constructor
      · simp [Token.isPunct, hread.word]
      apply hitem.name x.moduleWord hread.word (by rw [hread.next]; exact hends)
      have hend : pos + byteLength c.text = pos + byteLength (fillersText c.lead)
          + byteLength x.code + byteLength (fillersText c.trail) := by
        simp [Cell.text, hleaf, Identifier.leaf, Nat.add_assoc]
      rw [hend]
      refine ⟨?_, hread.next, _, hread.behind, ?_⟩
      · rw [Cell.tree, hleaf, hread.lo, hread.hi]
        rfl
      · rw [hread.comments]
        simp [Slot.comments, Cell.slot, hleaf, Leaf.item, Identifier.leaf]

/-- The members and holes of a list are read up to the mark that closes it. -/
theorem yields (h : cells.Sound IsName holes) (hitem : ReadsItems item holes)
    (hmark : Mark mark close) (hends : .punct close ∈ itemEnds) (hclose : close ≠ ",")
    (hn : cells.text.length < n) (hs : s.Awaits comments pos (cells.text ++ mark :: rest)) :
  Yields (commaList close item n) s fun ts t => t.tok.kind = .punct close ∧
    cells.Read pos (mark :: rest) (comments ++ s.comments) ts t
  := by
  induction cells generalizing s comments pos n with
  | last c =>
      obtain ⟨n, rfl⟩ : ∃ k, n = k + 1 := ⟨n - 1, by omega⟩
      obtain ⟨hfillers, hname⟩ := h.of_last
      cases hleaf : c.leaf? with
      | none =>
          rw [text, text_empty hleaf] at hs
          have hs := hs.fillers hfillers
          have hkind := (hs.readsMark hmark).1
          apply yields_commaList_done (by simp [Token.isPunct, hkind])
          rw [Read, text, text_empty hleaf, Cells.comments, row, Row.comments, comments_empty hleaf]
          exact ⟨hkind, by simp [trees, Cell.slot, hleaf], _, hs, List.append_assoc _ _ _⟩
      | some l =>
          obtain ⟨hstart, hread⟩ := yields_cell hitem hfillers hname (by simp [hleaf]) hmark hends
            hclose hs
          apply yields_commaList_last hstart
          apply hread.mono
          rintro t s' ⟨rfl, hkind, comments', hs', hcomments⟩
          refine ⟨by simp [Token.isPunct, hkind], hkind, ?_, comments', hs', hcomments⟩
          simp [trees, Cell.tree, Cell.slot, hleaf, Leaf.item]
  | cons c rest' ih =>
      obtain ⟨n, rfl⟩ : ∃ k, n = k + 1 := ⟨n - 1, by omega⟩
      obtain ⟨⟨hfillers, hname⟩, hhole, hrest⟩ := h.of_cons
      rw [text, List.append_assoc, List.cons_append] at hs
      simp only [text, List.length_append, List.length_cons] at hn
      obtain ⟨hstart, hread⟩ := yields_cell hitem hfillers hname (fun hnone => ⟨hhole hnone, rfl⟩)
        mark_comma (by simp [itemEnds]) hclose hs
      apply yields_commaList_item hstart
      apply hread.mono
      rintro t s' ⟨rfl, hkind, comments', hs', hcomments⟩
      obtain ⟨-, -, hs'', -, hcomments'⟩ := hs'.readsMark mark_comma
      refine ⟨by simpa [Token.isPunct, hkind] using Ne.symm hclose, by simp [Token.isPunct, hkind],
        ?_⟩
      apply (ih hrest (by omega) hs'').mono
      rintro ts t ⟨hkind, rfl, comments'', ht, hcomments''⟩
      refine ⟨hkind, rfl, comments'', ?_, ?_⟩
      · have hend : pos + byteLength (cons c rest').text
            = pos + byteLength c.text + 1 + byteLength rest'.text := by
          have hcomma : ','.utf8Size = 1 := rfl
          simp only [text, byteLength_append, byteLength_cons, hcomma]
          omega
        rw [hend]
        exact ht
      · rw [hcomments'', hcomments', List.nil_append, hcomments]
        simp [Cells.comments, row, Row.comments]

end Cells

/-! ### Statements -/

/-- What reads statements that may be declarations: those of a module or those of a body. -/
inductive Statements : Reader → Prop where
  | item (c : Context) (hc : c.typed = true) : Statements fun fuel => (rules fuel).item c
  | statement (c : Context) (hc : c.typed = true) :
      Statements fun fuel => (rules fuel).statement c true

/-- Whether a token starts neither decorators nor an import or an export. -/
structure Ordinary (t : Token) : Prop where
  notDecorated : t.isPunct "@" = false
  notImport : t.isWord "import" = false
  notExport : t.isWord "export" = false

theorem yields_decorators {r : Rules} {c : Context} {q : List Tree → State → Prop}
    (hfuel : 0 < r.fuel) (hs : s.tok.isPunct "@" = false) :
  Yields (Grammar.decorators r c) s q ↔ q [] s
  := by
  obtain ⟨n, hn⟩ : ∃ n, r.fuel = n + 1 := ⟨r.fuel - 1, by omega⟩
  have hdone : (do return !(← at? "@") : Parser Bool) s = .ok true s := by
    change EStateM.Result.ok (!s.tok.isPunct "@") s = _
    rw [hs]
    rfl
  rw [Grammar.decorators, hn]
  split
  · exact yields_collectUntil_done hdone
  · rw [yields_pure]

/-- What reads statements takes the rule for those that stand behind their decorators. -/
theorem Statements.context (h : Statements read) :
  ∃ c : Context, c.typed = true ∧ ∀ (k : Nat) (s : State) (q : Tree → State → Prop),
    Ordinary s.tok → Yields (statementFrom (rules (k + 2)) c s.tok.span.lo [] true) s q →
    Yields (read (k + 3)) s q
  := by
  cases h with
  | item c hc =>
      refine ⟨statementContext c, hc, fun k s q hs hread => ?_⟩
      change Yields (Grammar.item (rules (k + 2)) c) s q
      rw [Grammar.item]
      simp only [yields_bind, yields_here]
      change Yields (Grammar.decorators (rules (k + 1)) _) s _
      rw [yields_decorators (Nat.succ_pos k) hs.notDecorated]
      simpa only [yields_bind, yields_atWord?, hs.notImport, hs.notExport, Bool.false_eq_true,
        ↓reduceIte] using hread
  | statement c hc =>
      refine ⟨statementContext c, hc, fun k s q hs hread => ?_⟩
      change Yields (Grammar.statement (rules (k + 2)) c true) s q
      rw [Grammar.statement]
      simp only [yields_bind, yields_here]
      change Yields (Grammar.decorators (rules (k + 1)) _) s _
      rw [yields_decorators (Nat.succ_pos k) hs.notDecorated]
      exact hread

/-! ### Calls with lists -/

theorem mark_semicolon : Mark ';' ";" :=
  ⟨fun _ _ _ _ => rfl, fun _ => rfl, by decide⟩

/-- A statement may begin with a name in front of a parenthesis. -/
theorem Identifier.begins (x : Identifier) (cs : List Char) :
  Begins (x.code ++ '(' :: cs)
  := by
  have hread (rest : List Char) : (readLexeme true ((x.code ++ '(' :: cs) ++ '\n' :: rest)).kind
      = .word x.text false := by
    rw [List.append_assoc, List.cons_append, x.readLexeme_eq]
    rintro d ⟨⟩
    exact mark_open.notPart
  constructor
  · have hne {d : Char} := @ne_of_isIdentStart x.head d x.isIdentStart
    exact ⟨x.head, _, rfl, isGap_of_isIdentStart x.isIdentStart, hne (by decide), hne (by decide),
      hne (by decide), hne (by decide)⟩
  all_goals
    intro rest
    rw [hread]
  · nofun
  · nofun
  · intro w hw heq
    have hreserved : ∀ v ∈ continuations, v ∈ reservedWords ++ moduleWords := by decide
    exact x.moduleWord.ne (hreserved w hw) (Token.Kind.word.inj heq).1

/-- Names and holes are no properties with defaults. -/
theorem Cells.anyHoldsDefault_trees {cells : Cells} (h : ∀ l ∈ cells.leaves, IsName l) (pos : Nat) :
  anyHoldsDefault (cells.trees pos) = false
  := by
  have hall : ∀ t ∈ cells.trees pos, holdsDefault t = false := by
    intro t ht
    obtain ⟨span, rfl⟩ | ⟨l, hl, n, rfl⟩ := mem_trees ht
    · rfl
    · obtain ⟨x, rfl⟩ := h l hl
      rfl
  generalize cells.trees pos = ts at *
  induction ts with
  | nil => rfl
  | cons t ts ih =>
      obtain ⟨ht, hts⟩ := List.forall_mem_cons.mp hall
      rw [anyHoldsDefault, ht, ih hts]
      rfl

/-- The call of a name is read as a statement, given how what stands between the parentheses is. -/
theorem Statements.yields_call {x : Identifier} {inside : List Char} {k : Nat}
    {p : List Tree → Nat → List Comment → Prop} (h : Statements read)
    (hs : s.Awaits comments pos (x.code ++ '(' :: inside))
    (hlist : ∀ c : Context, c.typed = true → ∀ opened : State,
      opened.Awaits [] (pos + byteLength x.code + 1) inside →
      opened.comments = comments ++ s.comments →
      Yields (commaList ")" (spreadable (rules (k + 1)) c) (k + 1)) opened fun items t =>
        anyHoldsDefault items = false ∧ ∃ comments' pos',
          t.Awaits comments' pos' (')' :: ';' :: rest) ∧ p items pos' (comments' ++ t.comments)) :
  Yields (read (k + 6)) s fun tree t => ∃ items pos', p items pos' t.comments ∧
    t.Awaits [] (pos' + 2) rest ∧ tree = .node (.statement .expression) ⟨pos, pos' + 2⟩
      [callOf x.text pos (pos + byteLength x.code) (pos' + 1) items]
  := by
  have hname := hs.readsName (List.forall_mem_nil _) mark_open
  have hopen := hname.behind.readsMark mark_open
  obtain ⟨c, hc, hread⟩ := h.context
  apply hread (k + 3)
  · have hnot : ∀ v ∈ reservedWords ++ moduleWords, s.tok.isWord v = false := by
      intro v hv
      simpa [Token.isWord, Token.keyword?, hname.word] using x.moduleWord.ne hv
    exact ⟨by simp [Token.isPunct, hname.word], hnot _ (by decide), hnot _ (by decide)⟩
  apply yields_statementFrom_call hc x.moduleWord hname.word hname.next
  intro c hc
  apply (hlist c hc _ hopen.2.2.1 (by rw [hopen.2.2.2.2, hname.comments]; rfl)).mono
  rintro items t ⟨hdefault, comments', pos', ht, hp⟩
  obtain ⟨hclose, -, hu, hhi, hcomments⟩ := ht.readsMark mark_close
  obtain ⟨hend, -, hv, hhi', hcomments'⟩ := hu.readsMark mark_semicolon
  refine ⟨hclose, hend, hdefault, items, pos', ?_, hv, ?_⟩
  · rw [hcomments', hcomments]
    exact hp
  · rw [hname.lo, hname.hi, hhi, hhi']

theorem readsItems_spreadable {k : Nat} {c : Context} (hc : c.typed = true) :
  ReadsItems (spreadable (rules (k + 4)) c) false
  where
    name := yields_spreadable_name hc
    hole := nofun

theorem readsItems_arrayElement {k : Nat} {c : Context} (hc : c.typed = true) :
  ReadsItems (arrayElement (rules (k + 4)) c) true
  where
    name {w s q} hw hs hend hq := by
      have hcomma : s.tok.isPunct "," = false := by simp [Token.isPunct, hs]
      simp only [arrayElement, yields_bind, yields_here, yields_at?, hcomma, Bool.false_eq_true,
        ↓reduceIte]
      exact yields_spreadable_name hc hw hs hend hq
    hole {s q} _ hs hq := by
      have hcomma : s.tok.isPunct "," = true := by simp [Token.isPunct, hs]
      simpa only [arrayElement, yields_bind, yields_here, yields_at?, hcomma, ↓reduceIte,
        yields_pure] using hq

/-- A call of a name with a list. -/
def Compound.call (x : Identifier) : Compound :=
  ⟨x.code ++ ['('], [')', ';'],
    .node (.statement .expression) 0 2 []
      (.node (.call .plain) 0 1 [.node (.name x.text) ⟨0, byteLength x.code⟩ []] .hole []) []⟩

/-- A call of a name with an array. -/
def Compound.callArray (x : Identifier) : Compound :=
  let n := byteLength x.code
  ⟨x.code ++ ['(', '['], [']', ')', ';'],
    .node (.statement .expression) 0 3 []
      (.node (.call .plain) 0 2 [.node (.name x.text) ⟨0, n⟩ []]
        (.series .list [] (.node .array (n + 1) 1 [] .hole []) []) []) []⟩

theorem Compound.call_closed (x : Identifier) (h : Statements read) :
  (Compound.call x).ClosedList read IsName false
  := by
  have hcode (cells : Cells) : (Compound.call x).code cells
      = x.code ++ '(' :: (cells.text ++ [')', ';']) := by
    simp [Compound.code, call]
  have hfront : byteLength (Compound.call x).front = byteLength x.code + 1 := by
    rw [call, byteLength_append]
    rfl
  have hback : byteLength [')', ';'] = 2 := rfl
  have hparen : '('.utf8Size = 1 := rfl
  constructor
  case leaf => exact fun _ => IsName.sound
  case begins => exact fun cells => by rw [hcode]; exact x.begins _
  case opens => exact ⟨'(', by simp [call], by decide⟩
  case closes => exact ⟨')', [';'], rfl, by decide, by decide, by decide⟩
  case noReturn => simp [call, x.noReturn]
  case last => exact fun heq => absurd (Option.some.inj heq) (by decide)
  case root => exact ⟨_, _, _, _, rfl⟩
  case sound =>
    rw [hfront]
    simp [call, Around.sound, Tree.allWithin, Tree.within, hback]
  case reads =>
    intro fuel s comments pos cells rest hfuel hcells hs
    rw [fuelFor, hcode] at hfuel
    simp only [List.length_append, List.length_cons] at hfuel
    obtain ⟨k, rfl⟩ : ∃ k, fuel = k + 9 := ⟨fuel - 9, by omega⟩
    have htext : (Compound.call x).code cells ++ '\n' :: rest
        = x.code ++ '(' :: (cells.text ++ ')' :: ';' :: '\n' :: rest) := by
      simp [hcode]
    rw [htext] at hs
    apply (h.yields_call (p := fun items pos' known =>
      items = cells.trees (pos + byteLength x.code + 1)
      ∧ pos' = pos + byteLength x.code + 1 + byteLength cells.text
      ∧ known = (cells.comments (pos + byteLength x.code + 1)).reverse ++ (comments ++ s.comments))
      hs ?_).mono
    · rintro tree t ⟨items, pos', ⟨rfl, rfl, hcomments⟩, ht, rfl⟩
      have hend : pos + byteLength ((Compound.call x).code cells)
          = pos + byteLength x.code + 1 + byteLength cells.text + 2 := by
        simp only [hcode, byteLength_append, byteLength_cons, hback, hparen]
        omega
      rw [hend, hfront, ← Nat.add_assoc]
      refine ⟨?_, ht, hcomments⟩
      simp [call, Around.fill, Tree.moveAll, Tree.move, Span.move, callOf]
    · intro c hc opened hopened hknown
      apply (Cells.yields hcells (readsItems_spreadable hc) mark_close (by simp [itemEnds])
        (by decide) (by omega) hopened).mono
      rintro items t ⟨-, rfl, comments', ht, hcomments⟩
      rw [hknown, List.nil_append] at hcomments
      exact ⟨Cells.anyHoldsDefault_trees hcells.members _, comments', _, ht, rfl, rfl, hcomments⟩

theorem Compound.callArray_closed (x : Identifier) (h : Statements read) :
  (Compound.callArray x).ClosedList read IsName true
  := by
  have hcode (cells : Cells) : (Compound.callArray x).code cells
      = x.code ++ '(' :: '[' :: (cells.text ++ [']', ')', ';']) := by
    simp [Compound.code, callArray]
  have hfront : byteLength (Compound.callArray x).front = byteLength x.code + 2 := by
    rw [callArray, byteLength_append]
    rfl
  have hback : byteLength [']', ')', ';'] = 3 := rfl
  have hparen : '('.utf8Size = 1 := rfl
  have hbracket : '['.utf8Size = 1 := rfl
  constructor
  case leaf => exact fun _ => IsName.sound
  case begins => exact fun cells => by rw [hcode]; exact x.begins _
  case opens => exact ⟨'[', by simp [callArray], by decide⟩
  case closes => exact ⟨']', [')', ';'], rfl, by decide, by decide, by decide⟩
  case noReturn => simp [callArray, x.noReturn]
  case last => exact fun heq => absurd (Option.some.inj heq) (by decide)
  case root => exact ⟨_, _, _, _, rfl⟩
  case sound =>
    rw [hfront]
    simp [callArray, Around.sound, Around.isNode, Tree.allWithin, Tree.within, hback]
  case reads =>
    intro fuel s comments pos cells rest hfuel hcells hs
    rw [fuelFor, hcode] at hfuel
    simp only [List.length_append, List.length_cons] at hfuel
    obtain ⟨k, rfl⟩ : ∃ k, fuel = k + 12 := ⟨fuel - 12, by omega⟩
    have htext : (Compound.callArray x).code cells ++ '\n' :: rest
        = x.code ++ '(' :: '[' :: (cells.text ++ ']' :: ')' :: ';' :: '\n' :: rest) := by
      simp [hcode]
    rw [htext] at hs
    apply (h.yields_call (p := fun items pos' known =>
      items = [.node .array ⟨pos + byteLength x.code + 1, pos'⟩
        [.series .list (cells.trees (pos + byteLength x.code + 2))]]
      ∧ pos' = pos + byteLength x.code + 2 + byteLength cells.text + 1
      ∧ known = (cells.comments (pos + byteLength x.code + 2)).reverse ++ (comments ++ s.comments))
      hs ?_).mono
    · rintro tree t ⟨items, pos', ⟨rfl, rfl, hcomments⟩, ht, rfl⟩
      have hend : pos + byteLength ((Compound.callArray x).code cells)
          = pos + byteLength x.code + 2 + byteLength cells.text + 1 + 2 := by
        simp only [hcode, byteLength_append, byteLength_cons, hback, hparen, hbracket]
        omega
      rw [hend, hfront, ← Nat.add_assoc]
      refine ⟨?_, ht, hcomments⟩
      simp [callArray, Around.fill, Tree.moveAll, Tree.move, Span.move, callOf, Nat.add_assoc]
    · intro c hc opened hopened hknown
      have hread := hopened.readsMark mark_openBracket
      apply yields_commaList_last (by simp [Token.isPunct, hread.1])
      apply yields_spreadable_array hread.1
      apply (Cells.yields hcells (readsItems_arrayElement hc) mark_bracket (by simp [itemEnds])
        (by decide) (by omega) hread.2.2.1).mono
      rintro items t ⟨hkind, rfl, comments', ht, hcomments⟩
      obtain ⟨-, -, hu, hhi, hcomments'⟩ := ht.readsMark mark_bracket
      have hclose := (hu.readsMark mark_close).1
      have hleaves := Cells.anyHoldsDefault_trees hcells.members (pos + byteLength x.code + 2)
      rw [hread.2.2.2.2, hknown, List.nil_append, List.nil_append] at hcomments
      refine ⟨hkind, by simp [itemEnds, hclose], by simp [Token.isPunct, hclose], ?_, [], _, hu, ?_,
        rfl, ?_⟩
      · simp [anyHoldsDefault, holdsDefault, hleaves]
      · rw [hread.2.1, hhi]
      · rw [hcomments', hcomments]
        rfl

end Prune
