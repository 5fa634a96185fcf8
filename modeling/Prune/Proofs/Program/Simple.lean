import Mathlib.Data.List.Basic
import Prune.Proofs.Program.Calls

/-!
# Simple programs

Programs that are made of comments, calls, blocks and functions (`Program.Simple`), where the calls
may have lists of names or arrays of them.  Each of these is read as it is, whatever stands on the
lines around it, and so a simple program has the tree that it spells out (`Program.Simple.closed`).
-/

namespace Prune

open Source Text Source.Parser Source.Grammar

/-! ### Comments -/

/-- A comment up to the end of its line. -/
def Remark.line (text : List Char) : Remark :=
  ⟨'/' :: '/' :: text, String.ofList text⟩

/-- A text without ends of lines is that of a comment. -/
theorem Remark.line_sound {text : List Char} (h : ∀ c ∈ text, isLineEnd c = false) :
  (Remark.line text).Sound
  := by
  constructor
  · intro comments newline pos rest
    have hread : Gap.readFrom .blank comments newline false pos
          ((Remark.line text).code ++ '\n' :: rest)
        = Gap.readFrom (.line pos 0 []) comments newline false (pos + 1 + 1)
          (text ++ '\n' :: rest) := rfl
    have hslash : '/'.utf8Size = 1 := rfl
    have hend : pos + (1 + (1 + byteLength text)) = pos + 1 + 1 + byteLength text := by omega
    rw [hread, Gap.readFrom_line h]
    simp only [line, byteLength_cons, hslash, List.reverse_nil, List.nil_append, hend]
  · rfl
  · simp only [line, List.mem_cons, not_or]
    refine ⟨by decide, by decide, fun hreturn => ?_⟩
    have hend := h _ hreturn
    contradiction

/-! ### Statements -/

variable {s : State} {comments : List Comment} {pos : Nat} {rest : List Char} {read : Reader}

/-- What is read of a name in front of empty parentheses. -/
structure ReadsCall (x : Identifier) (comments : List Comment) (pos : Nat) (rest : List Char)
    (s : State) : Prop where
  atCall : AtCall x.text s
  lo : s.tok.span.lo = pos
  mid : (s.after s.tok).prevEnd = pos + byteLength x.code
  hi : (behindCall s).prevEnd = pos + byteLength x.code + 2
  behind : (behindCall s).Awaits [] (pos + byteLength x.code + 2) rest
  comments : (behindCall s).comments = comments ++ s.comments

theorem Source.Parser.State.Awaits.readsCall {x : Identifier}
    (h : s.Awaits comments pos (x.code ++ '(' :: ')' :: rest)) :
  ReadsCall x comments pos rest s
  := by
  have hname := h.readsName (List.forall_mem_nil _) mark_open
  obtain ⟨hopens, -, h₂, -, hcomments₁⟩ := hname.behind.readsMark mark_open
  obtain ⟨hcloses, -, h₃, hhi, hcomments₂⟩ := h₂.readsMark mark_close
  refine ⟨⟨hname.word, hopens, hcloses⟩, hname.lo, hname.hi, hhi, h₃, ?_⟩
  rw [behindCall, hcomments₂, hcomments₁, hname.comments]
  rfl

/-- A call of a name as a statement. -/
def Phrase.call (x : Identifier) : Phrase :=
  let n := byteLength x.code
  ⟨x.code ++ ['(', ')', ';'],
    .node (.statement .expression) ⟨0, n + 3⟩ [callOf x.text 0 n (n + 2) []], []⟩

/-- Statements in braces. -/
def Compound.block : Compound :=
  ⟨[Char.ofNat 0x7B], [Char.ofNat 0x7D], .node (.statement .block) 0 1 [] .hole []⟩

/-- The word that a function starts with, and a blank. -/
def functionWord : List Char :=
  ['f', 'u', 'n', 'c', 't', 'i', 'o', 'n', ' ']

/-- A function without parameters. -/
def Compound.function (x : Identifier) : Compound :=
  let n := byteLength x.code
  ⟨functionWord ++ (x.code ++ ['(', ')', ' ', Char.ofNat 0x7B]), [Char.ofNat 0x7D],
    .node (.declaration (.function false false)) 0 1
      [.node (.name x.text) ⟨9, 9 + n⟩ [], .series .list []]
      (.node (.statement .block) (12 + n) 1 [] .hole []) []⟩

theorem Phrase.call_closed (x : Identifier) (h : Statements read) :
  (Phrase.call x).Closed read
  := by
  have hbytes : byteLength ['(', ')', ';'] = 3 := rfl
  have hlength : byteLength (Phrase.call x).code = byteLength x.code + 3 := by
    rw [call, byteLength_append, hbytes]
  constructor
  case begins => exact x.begins _
  case noReturn => simp [call, x.noReturn]
  case last => simp [call]
  case isNode => rfl
  case span => rw [hlength]; rfl
  case within =>
    rw [hlength]
    simp [call, callOf, Tree.within, Tree.allWithin]
  case inside => exact List.forall_mem_nil _
  case ordered => exact .nil
  case plain => exact List.forall_mem_nil _
  case reads =>
    intro fuel s comments pos rest hfuel hs _
    obtain ⟨k, rfl⟩ : ∃ k, fuel = k + 6 := ⟨fuel - 6, by rw [fuelFor] at hfuel; omega⟩
    have hcode : (Phrase.call x).code ++ '\n' :: rest
        = x.code ++ '(' :: (')' :: ';' :: '\n' :: rest) := by
      simp [call]
    rw [hcode] at hs
    apply (h.yields_call (p := fun items pos' known => items = []
      ∧ pos' = pos + byteLength x.code + 1 ∧ known = comments ++ s.comments) hs ?_).mono
    · rintro tree t ⟨items, pos', ⟨rfl, rfl, hcomments⟩, ht, rfl⟩
      rw [hlength]
      refine ⟨?_, ht, hcomments⟩
      simp [call, callOf, Tree.move, Tree.moveAll, Span.move, Nat.add_assoc]
    · intro c hc opened hopened hknown
      have hclose := (hopened.readsMark mark_close).1
      apply yields_commaList_done (by simp [Token.isPunct, hclose])
      exact ⟨rfl, [], _, hopened, rfl, rfl, hknown⟩

theorem Compound.begins_block :
  Begins Compound.block.front
  := by
  have hread (rest : List Char) :
      (readLexeme true (Compound.block.front ++ '\n' :: rest)).kind = .punct openBrace := rfl
  constructor
  · exact ⟨Char.ofNat 0x7B, [], rfl, by decide, by decide, by decide, by decide, by decide⟩
  all_goals
    intro rest
    rw [hread]
  · nofun
  · intro heq
    exact absurd (Token.Kind.punct.inj heq) (by decide)
  · nofun

theorem Compound.block_closed (h : Statements read) :
  ∃ inner, Statements inner ∧ Compound.block.Closed read inner
  := by
  obtain ⟨c, hc, hread⟩ := h.context
  refine ⟨_, .statement (statementContext c) hc, ?_⟩
  constructor
  case begins => exact Compound.begins_block
  case closes => exact ⟨[], rfl⟩
  case noReturn => decide
  case last => decide
  case root => exact ⟨_, _, _, _, rfl⟩
  case sound => rfl
  case reads =>
    intro fuel size s comments pos inside hfuel hs
    obtain ⟨k, rfl⟩ : ∃ k, fuel = k + 3 := ⟨fuel - 3, by rw [fuelFor] at hfuel; omega⟩
    obtain ⟨hkind, hlo, hs', -, hcomments⟩ :=
      hs.reads (.punct openBrace) 1 (fun _ => Compound.begins_block.readFrom) rfl
    have hlength : Compound.block.front.length = 1 := rfl
    rw [fuelFor, hlength] at hfuel
    refine ⟨k + 1, k + 1, s.after s.tok, by omega, by omega, hs', hcomments, ?_⟩
    intro items closed comments' pos' rest hitems hclosed _
    obtain ⟨hkind', -, hs'', hend, hcomments'⟩ :=
      hclosed.reads (.punct closeBrace) 1 (fun _ => rfl) rfl
    apply hread
    · constructor <;> simp [Token.isPunct, Token.isWord, Token.keyword?, hkind, openBrace]
    simp only [statementFrom, yields_bind, yields_peek, hkind]
    change Yields (Grammar.body (rules (k + 1)) _) s _
    apply yields_body _ hitems
    · simp [Token.isPunct, hkind']
    · refine ⟨?_, hs'', hcomments'⟩
      rw [hend, hlo]
      rfl
    · simp [Token.isPunct, hkind]

theorem Compound.begins_function (x : Identifier) :
  Begins (Compound.function x).front
  := by
  have hread (rest : List Char) :
      (readLexeme true ((Compound.function x).front ++ '\n' :: rest)).kind
        = .word "function" false := rfl
  constructor
  · exact ⟨'f', _, rfl, by decide, by decide, by decide, by decide, by decide⟩
  all_goals
    intro rest
    rw [hread]
  · nofun
  · nofun
  · intro w hw heq
    obtain rfl := (Token.Kind.word.inj heq).1
    revert hw
    decide

theorem Compound.byteLength_function (x : Identifier) :
  byteLength (Compound.function x).front = byteLength x.code + 13
  := by
  have hbytes : byteLength functionWord = 9 := rfl
  have hbytes' : byteLength ['(', ')', ' ', Char.ofNat 0x7B] = 4 := rfl
  rw [function, byteLength_append, byteLength_append, hbytes, hbytes']
  omega

/-- What is read of the front of a function. -/
structure ReadsFunction (x : Identifier) (comments : List Comment) (pos : Nat) (inside : List Char)
    (s : State) : Prop where
  word : s.tok.kind = .word "function" false
  lo : s.tok.span.lo = pos
  call : AtCall x.text (s.after s.tok)
  name : (s.after s.tok).tok.span.lo = pos + 9
  mid : ((s.after s.tok).after (s.after s.tok).tok).prevEnd = pos + (9 + byteLength x.code)
  opens : (behindCall (s.after s.tok)).tok.kind = .punct openBrace
  body : (behindCall (s.after s.tok)).tok.span.lo = pos + (12 + byteLength x.code)
  behind : ((behindCall (s.after s.tok)).after (behindCall (s.after s.tok)).tok).Awaits []
    (pos + byteLength (Compound.function x).front) ('\n' :: inside)
  comments : ((behindCall (s.after s.tok)).after (behindCall (s.after s.tok)).tok).comments
    = comments ++ s.comments

theorem Source.Parser.State.Awaits.readsFunction {x : Identifier} {inside : List Char}
    (h : s.Awaits comments pos ((Compound.function x).front ++ '\n' :: inside)) :
  ReadsFunction x comments pos inside s
  := by
  have hcode : (Compound.function x).front ++ '\n' :: inside
      = functionWord ++ (x.code ++ '(' :: ')' :: (' ' :: Char.ofNat 0x7B :: '\n' :: inside)) := by
    simp [Compound.function]
  rw [hcode] at h
  have hword (cs : List Char) :
      readLexeme true (functionWord ++ cs) = ⟨.word "function" false, ' ' :: cs, 8, false⟩ := rfl
  obtain ⟨hkind, hlo, hs, -, hcomments⟩ := h.reads _ _ (fun _ => rfl) (hword _)
  have hblank : Indent [' '] := by simp [Indent]
  have hblank' : byteLength [' '] = 1 := rfl
  have hcall := (hs.indent hblank).readsCall
  obtain ⟨hopen, hlo', hopened, -, hcomments'⟩ :=
    (hcall.behind.indent hblank).reads (.punct openBrace) 1 (fun _ => rfl) rfl
  rw [hblank'] at hcall hlo' hopened
  refine ⟨hkind, hlo, hcall.atCall, hcall.lo, ?_, hopen, ?_, ?_, ?_⟩
  · rw [hcall.mid]
    omega
  · rw [hlo']
    omega
  · have hend : pos + (byteLength x.code + 13) = pos + 8 + 1 + byteLength x.code + 2 + 1 + 1 := by
      omega
    rw [Compound.byteLength_function, hend]
    exact hopened
  · rw [hcomments', hcall.comments, hcomments]
    rfl

theorem Compound.function_closed (x : Identifier) (h : Statements read) :
  ∃ inner, Statements inner ∧ (Compound.function x).Closed read inner
  := by
  obtain ⟨c, hc, hread⟩ := h.context
  refine ⟨_, .statement (statementContext (functionContext c)) hc, ?_⟩
  constructor
  case begins => exact Compound.begins_function x
  case closes => exact ⟨[], rfl⟩
  case noReturn =>
    have hword : '\r' ∉ functionWord := by decide
    simp [function, hword, x.noReturn]
  case last => exact fun heq => absurd (Option.some.inj heq) (by decide)
  case root => exact ⟨_, _, _, _, rfl⟩
  case sound =>
    have hback : (Char.ofNat 0x7D).utf8Size = 1 := rfl
    rw [byteLength_function]
    simp [function, Around.sound, Tree.allWithin, Tree.within, hback]
    omega
  case reads =>
    intro fuel size s comments pos inside hfuel hs
    obtain ⟨k, rfl⟩ : ∃ k, fuel = k + 3 := ⟨fuel - 3, by rw [fuelFor] at hfuel; omega⟩
    have hsize : 14 ≤ (function x).front.length := by
      simp [function, functionWord, Identifier.code]
    rw [fuelFor] at hfuel
    have hfront := hs.readsFunction
    refine ⟨k + 1, k + 1, _, by omega, by omega, hfront.behind, hfront.comments, ?_⟩
    intro items closed comments' pos' rest hitems hclosed _
    obtain ⟨hkind, -, hs', hend, hcomments⟩ :=
      hclosed.reads (.punct closeBrace) 1 (fun _ => rfl) rfl
    apply hread
    · constructor <;> simp [Token.isPunct, Token.isWord, Token.keyword?, hfront.word]
    apply yields_statementFrom_function (Nat.succ_pos _) x.moduleWord hfront.word hfront.call
    · simp [Token.isPunct, hfront.opens]
    change Yields (Grammar.body (rules (k + 1)) _) _ _
    apply yields_body _ hitems
    · simp [Token.isPunct, hkind]
    · refine ⟨?_, hs', hcomments⟩
      rw [hend, hfront.lo, hfront.name, hfront.mid, hfront.body]
      simp [function, Around.fill, Tree.moveAll, Tree.move, Span.move]
    · simp [Token.isPunct, hfront.opens]

/-! ### Programs -/

/-- Whether a program is made of comments up to the ends of their lines, calls, blocks and
functions, where the calls may have lists of names, or arrays of names and holes. -/
inductive Program.Simple : Program → Prop where
  | nil : Simple nil
  | blank {indent : List Char} {next : Program} (hindent : Indent indent) (hnext : Simple next) :
      Simple (blank indent next)
  | remark {indent text : List Char} {next : Program} (hindent : Indent indent)
      (htext : ∀ c ∈ text, isLineEnd c = false) (hnext : Simple next) :
      Simple (remark indent (.line text) next)
  | call {indent : List Char} {next : Program} (hindent : Indent indent) (x : Identifier)
      (hnext : Simple next) : Simple (phrase indent (.call x) next)
  | list {indent : List Char} {cells : Cells} {next : Program} (hindent : Indent indent)
      (x : Identifier) (hcells : cells.Sound IsName false) (hnext : Simple next) :
      Simple (listing indent (.call x) cells next)
  | array {indent : List Char} {cells : Cells} {next : Program} (hindent : Indent indent)
      (x : Identifier) (hcells : cells.Sound IsName true) (hnext : Simple next) :
      Simple (listing indent (.callArray x) cells next)
  | block {indent foot : List Char} {body next : Program} (hindent : Indent indent)
      (hfoot : Indent foot) (hbody : Simple body) (hnext : Simple next) :
      Simple (compound indent .block body foot next)
  | function {indent foot : List Char} {body next : Program} (hindent : Indent indent)
      (hfoot : Indent foot) (x : Identifier) (hbody : Simple body) (hnext : Simple next) :
      Simple (compound indent (.function x) body foot next)

/-- All that a simple program is made of is read as it is. -/
theorem Program.Simple.closed {p : Program} (hp : p.Simple) (h : Statements read) :
  p.Closed read
  := by
  induction hp generalizing read with
  | nil => trivial
  | blank hindent _ ih => exact ⟨hindent, ih h⟩
  | remark hindent htext _ ih => exact ⟨hindent, Remark.line_sound htext, ih h⟩
  | call hindent x _ ih => exact ⟨hindent, Phrase.call_closed x h, ih h⟩
  | list hindent x hcells _ ih => exact ⟨hindent, ⟨_, _, Compound.call_closed x h, hcells⟩, ih h⟩
  | array hindent x hcells _ ih =>
      exact ⟨hindent, ⟨_, _, Compound.callArray_closed x h, hcells⟩, ih h⟩
  | block hindent hfoot _ _ ihbody ih =>
      obtain ⟨inner, hinner, hblock⟩ := Compound.block_closed h
      exact ⟨hindent, hfoot, ⟨inner, hblock, ihbody hinner⟩, ih h⟩
  | function hindent hfoot x _ _ ihbody ih =>
      obtain ⟨inner, hinner, hfunction⟩ := Compound.function_closed x h
      exact ⟨hindent, hfoot, ⟨inner, hfunction, ihbody hinner⟩, ih h⟩

/-- The items of a module are statements, or imports and exports. -/
theorem Program.statements_items (path : String) :
  Statements (items path)
  := .item { typed := true, markup := hasMarkup path } rfl

/-- A simple program has the tree and the comments that it spells out. -/
theorem Program.Simple.parseSource_eq {p : Program} (hp : p.Simple) (path : String) :
  parseSource p.source path = some p.parsed
  := (hp.closed (statements_items path)).parseSource_eq

end Prune
