import Mathlib.Data.List.Basic
import Mathlib.Data.List.Pairwise
import Prune.Proofs.Edit.BlankLines
import Prune.Proofs.Elision.Thinning
import Prune.Proofs.Program.Deletions

/-!
# Lines that are cut out

Lines of a text that no edit touches stay when edits are carried out (`Edit.LineAt.standing_eq`),
and nothing stays of lines all of which a deletion takes out but for blanks
(`Edit.LineAt.standing_cut`).  So what stands for a program of which statements, members of lists
and directives go is a program again, with the trees that are left of its own
(`Program.Cut.exists_leaves`).  The proof is by induction along its lines: what is left of a part of
it (`Program.Leaves`) is told for each kind of line, and what goes of the program is what goes of
its parts (`Program.Cut.part`).
-/

namespace Prune

open Text Source

namespace Edit

variable {text mid rest : List Char} {pos : Nat} {e : Edit} {edits : List Edit}

/-! ### Starts of lines -/

/-- Whether a text goes on at an offset with a new line. -/
def LineAt (text cs : List Char) (pos : Nat) : Prop :=
  ∃ pre, text = pre ++ cs ∧ byteLength pre = pos ∧ lastLine pre = []

namespace LineAt

variable {blanks code : List Char}

theorem stands (h : LineAt text rest pos) :
  Stands text rest pos
  := by
  obtain ⟨pre, htext, hpos, -⟩ := h
  exact ⟨pre, htext, hpos⟩

theorem behind (h : LineAt text (blanks ++ (code ++ '\n' :: rest)) pos) :
  LineAt text rest (Program.behind pos blanks code)
  := by
  obtain ⟨pre, rfl, rfl, -⟩ := h
  refine ⟨pre ++ blanks ++ code ++ ['\n'], by simp, ?_, lastLine_append_lineFeed _⟩
  have hfeed : '\n'.utf8Size = 1 := rfl
  simp only [byteLength_append, byteLength_cons, byteLength_nil, hfeed, Program.behind]

/-- What is on a line goes with the whole of the line. -/
theorem widen (h : LineAt text (blanks ++ (code ++ '\n' :: rest)) pos) (hblanks : Indent blanks) :
  (deletion ⟨pos + byteLength blanks, pos + byteLength blanks + byteLength code⟩).widen text
    = ⟨pos, Program.behind pos blanks code, ""⟩
  := by
  have hlength := h.behind.stands.add_byteLength
  obtain ⟨pre, rfl, rfl, hpre⟩ := h
  have hline : '\n' ∉ blanks := by
    intro hfeed
    obtain h | h := hblanks _ hfeed <;> simp at h
  have hbefore := lineBefore_append (pre ++ blanks) (code ++ '\n' :: rest)
  have hafter := @lineAfter_append [] ('\n' :: rest) (by simp) (.inr ⟨rest, rfl⟩)
    (pre ++ blanks ++ code)
  rw [lastLine_append hline, hpre, List.nil_append, byteLength_append] at hbefore
  simp only [List.nil_append, List.append_assoc, byteLength_append, ← Nat.add_assoc]
    at hbefore hafter
  have hall : blanks.all isBlank = true := by
    rw [List.all_eq_true]
    intro c hc
    obtain rfl | rfl := hblanks c hc <;> rfl
  have hdeletion (s : Span) : (deletion s).isDeletion = true := rfl
  rw [Edit.widen, if_pos (hdeletion _)]
  simp only [deletion, hbefore, hafter, hall, List.all_nil, if_true, byteLength_nil, Nat.add_zero,
    Nat.add_sub_cancel]
  rw [Nat.min_eq_left (by rw [Program.behind] at hlength; omega)]
  rfl

/-- In front of a line stands a line feed, if anything does. -/
theorem lineFeed (h : LineAt text rest pos) (hpos : 0 < pos) :
  CharAt text (pos - 1) '\n'
  := by
  obtain ⟨pre, rfl, rfl, hpre⟩ := h
  obtain rfl | ⟨init, c, rfl⟩ := List.eq_nil_or_concat pre
  · simp at hpos
  rw [List.concat_eq_append] at *
  obtain rfl : c = '\n' := by
    by_contra hc
    rw [lastLine_append (by simpa using Ne.symm hc)] at hpre
    simp at hpre
  have hfeed : '\n'.utf8Size = 1 := rfl
  exact ⟨rest, init, by simp, by simp [hfeed]⟩

/-- A deletion on lines in front of one is not widened into it. -/
theorem widen_hi_le (h : LineAt text rest pos) (he : e.Placed text) (hlt : e.hi < pos) :
  (e.widen text).hi ≤ pos
  := by
  have := widen_le_of_lineFeed he.hi (h.lineFeed (by omega)) (by omega)
  omega

/-- What edits merge to that end in front of a line or start behind its start does so too. -/
theorem apart_merge (h : LineAt text rest pos) (hedits : ∀ e ∈ edits, e.Proper text)
    (hout : ∀ e ∈ edits, e.hi < pos ∨ pos ≤ e.lo) :
  ∀ m ∈ merge (sortBy precedes edits), m.hi < pos ∨ pos ≤ m.lo
  := by
  intro m hm
  obtain rfl | hpos := Nat.eq_zero_or_pos pos
  · exact .inr (Nat.zero_le _)
  have hnot : ∀ e ∈ edits, ∀ n, pos - 1 ≤ n → n < pos → ¬e.Covers n := by
    rintro e he n hle hlt ⟨hcovers, hcovers'⟩
    have := hout e he
    omega
  have := Edit.apart_merge hedits hnot (by omega) m hm
  omega

/-- Lines that no edit touches stay, and so does the start of a line up to some ink. -/
theorem standing_eq (h : LineAt text (mid ++ rest) pos) (hedits : ∀ e ∈ edits, e.Proper text)
    (hout : ∀ e ∈ edits, e.hi < pos ∨ pos + byteLength mid ≤ e.lo)
    (hlast : ∃ c, mid.getLast? = some c ∧ (isBlank c = false ∨ c = '\n')) :
  standing text edits pos (pos + byteLength mid) = mid
  := by
  have hmid := h.stands
  obtain ⟨front, back, hsplit, -, hback, hfront, -⟩ :=
    standing_of_untouched hedits
      (fun e he n hle hlt hcovers => by
        obtain ⟨hcovers, hcovers'⟩ := hcovers
        have := hout e he
        omega) hmid.boundary hmid.append.boundary (Nat.le_add_right _ _)
  rw [slice_of_stands hmid rfl rfl] at hsplit
  have hfront_nil : front = [] := by
    apply hfront
    intro m hm hle
    have hm_proper := proper_merge hedits m hm
    have hlt := hm_proper.lt
    obtain hbefore | hbehind := h.apart_merge hedits (fun e he => by have := hout e he; omega) m hm
    · exact h.widen_hi_le hm_proper.placed hbefore
    · omega
  rw [eq_nil_of_ink_last hsplit hback hlast, hfront_nil, List.nil_append, List.append_nil]
    at hsplit
  exact hsplit.symm

/-- What edits merge to that touch some lines only in a part of them touches them only there, and puts
nothing in its place. -/
theorem merge_under {lo hi next : Nat} (h : LineAt text rest pos)
    (hedits : ∀ e ∈ edits, e.Proper text) (hlo : pos ≤ lo) (hle : lo ≤ hi) (hhi : hi < next)
    (hout : ∀ e ∈ edits, e.hi < pos ∨ next ≤ e.lo ∨
      lo ≤ e.lo ∧ e.hi ≤ hi ∧ e.replacement = "") :
  ∀ m ∈ merge (sortBy precedes edits), m.hi < pos ∨ next ≤ m.lo ∨
    lo ≤ m.lo ∧ m.hi ≤ hi ∧ m.replacement = ""
  := by
  have hapart := h.apart_merge hedits fun e he => by
    have := hout e he
    omega
  -- no edit takes a byte of what stands on the lines in front of the part and behind it
  have hfront : ∀ e ∈ edits, ∀ n, pos ≤ n → n < lo → ¬e.Covers n := by
    rintro e he n hle hlt ⟨hcovers, hcovers'⟩
    have := hout e he
    omega
  have hback : ∀ e ∈ edits, ∀ n, hi ≤ n → n < next → ¬e.Covers n := by
    rintro e he n hle hlt ⟨hcovers, hcovers'⟩
    have := hout e he
    omega
  have hreplaced : ∀ m ∈ merge (sortBy precedes edits),
      m.replacement ≠ "" → m.lo < pos ∨ next ≤ m.lo := by
    apply forall_merge
    · exact fun _ _ ha _ => ha
    · intro e he hr
      have he := mem_sortBy_iff.mp he
      have := (hedits e he).lt
      obtain hbefore | hbehind | ⟨-, -, hnone⟩ := hout e he
      · exact .inl (by omega)
      · exact .inr hbehind
      · exact absurd hnone hr
  intro m hm
  have hlt := (proper_merge hedits m hm).lt
  have hpos := hapart m hm
  have hbehind := Edit.apart_merge hedits hback hhi m hm
  have hbefore : m.hi ≤ pos ∨ lo ≤ m.lo := by
    obtain heq | hlt := Nat.eq_or_lt_of_le hlo
    · omega
    · exact Edit.apart_merge hedits hfront hlt m hm
  by_cases hr : m.replacement = ""
  · simp only [hr, and_true]
    omega
  · have := hreplaced m hm hr
    omega

/-- Of edits that touch some lines, one deletion and others under it, the deletion is left when they
are merged. -/
theorem merge_cut {d : Span} {next : Nat} (h : LineAt text rest pos)
    (hedits : ∀ e ∈ edits, e.Proper text) (hd : deletion d ∈ edits) (hlo : pos ≤ d.lo)
    (hhi : d.hi < next)
    (hout : ∀ e ∈ edits, e.hi < pos ∨ next ≤ e.lo ∨
      d.lo ≤ e.lo ∧ e.hi ≤ d.hi ∧ e.replacement = "") :
  deletion d ∈ merge (sortBy precedes edits) ∧
    ∀ m ∈ merge (sortBy precedes edits), m.hi < pos ∨ next ≤ m.lo ∨ m = deletion d
  := by
  have hd_lt : d.lo < d.hi := (hedits _ hd).lt
  have hunder := h.merge_under hedits hlo (Nat.le_of_lt hd_lt) hhi hout
  obtain ⟨k, hk, hk_lo, hk_hi⟩ :=
    exists_under_merge (pairwise_sortBy_precedes edits) _ (mem_sortBy_iff.mpr hd)
  simp only [deletion] at hk_lo hk_hi
  obtain rfl : k = deletion d := by
    obtain hbefore | hbehind | ⟨hk_lo', hk_hi', hr⟩ := hunder k hk
    · omega
    · omega
    · cases k
      simp only at hk_lo hk_lo' hk_hi hk_hi' hr
      rw [deletion, Nat.le_antisymm hk_lo hk_lo', Nat.le_antisymm hk_hi' hk_hi, hr]
  refine ⟨hk, fun m hm => (hunder m hm).imp_right (.imp_right fun hin => ?_)⟩
  -- another one would stand apart from the deletion that it is under
  by_contra hne
  have hlt := (proper_merge hedits m hm).lt
  have hsymm : Std.Symm fun a b : Edit => a.hi ≤ b.lo ∨ b.hi ≤ a.lo := ⟨fun _ _ => Or.symm⟩
  have hdisjoint : (merge (sortBy precedes edits)).Pairwise fun a b => a.hi ≤ b.lo ∨ b.hi ≤ a.lo :=
    (disjoint_merge hedits).imp Or.inl
  have hapart := hdisjoint.forall hm hk hne
  simp only [deletion] at hapart
  omega

/-- A line that no edit touches stays. -/
theorem standing_line (h : LineAt text (blanks ++ (code ++ '\n' :: rest)) pos)
    (hedits : ∀ e ∈ edits, e.Proper text)
    (hout : ∀ e ∈ edits, e.hi < pos ∨ Program.behind pos blanks code ≤ e.lo) :
  standing text edits pos (Program.behind pos blanks code) = blanks ++ (code ++ ['\n'])
  := by
  have hline : LineAt text ((blanks ++ (code ++ ['\n'])) ++ rest) pos := by
    simpa using h
  have hend : Program.behind pos blanks code = pos + byteLength (blanks ++ (code ++ ['\n'])) := by
    simpa using Program.behind_add pos blanks code []
  rw [hend] at hout ⊢
  exact hline.standing_eq hedits hout ⟨'\n', by simp, .inr rfl⟩

/-- Nothing stays of lines all of which a deletion takes out but for blanks. -/
theorem standing_cut (h : LineAt text (blanks ++ (code ++ '\n' :: rest)) pos)
    (hblanks : Indent blanks) (hedits : ∀ e ∈ edits, e.Proper text)
    (hd : deletion ⟨pos + byteLength blanks, pos + byteLength blanks + byteLength code⟩ ∈ edits)
    (hout : ∀ e ∈ edits, e.hi < pos ∨ Program.behind pos blanks code ≤ e.lo ∨
      pos + byteLength blanks ≤ e.lo ∧ e.hi ≤ pos + byteLength blanks + byteLength code ∧
        e.replacement = "") :
  standing text edits pos (Program.behind pos blanks code) = []
  := by
  have hplaced := placed_merge fun e he => (hedits e he).placed
  have hwiden := h.widen hblanks
  obtain ⟨hmem, hmerge⟩ := h.merge_cut hedits hd (Nat.le_add_right _ _) (Nat.lt_succ_self _) hout
  generalize hd_eq : (⟨pos + byteLength blanks, pos + byteLength blanks + byteLength code⟩ : Span)
    = d at *
  apply List.flatMap_eq_nil_iff.mpr
  intro q hq
  cases hr : q.replacement with
  | none =>
      rw [Piece.outputIn_of_kept hr]
      apply slice_of_le
      by_contra hlt
      have hin : q.lo ≤ max q.lo pos ∧ max q.lo pos < q.hi := ⟨by omega, by omega⟩
      refine not_kept_from_widen hplaced hmem (pairwise_merge (pairwise_sortBy_precedes edits))
        ?_ ?_ hq hr hin
      · intro m hm hle
        obtain hbefore | hbehind | rfl := hmerge m hm
        · have := (widened_widen (hplaced m hm)).lo_le
          have := (hplaced m hm).le
          omega
        · subst hd_eq
          simp only [deletion] at hle hbehind
          omega
        · rw [hwiden]
          exact Nat.le_max_right _ _
      · rw [hwiden]
        simp only
        omega
  | some r =>
      by_cases hne : r = ""
      · simp [Piece.outputIn_of_replaced hr, hne]
      · obtain ⟨m, hm, rfl, hlo⟩ := lo_of_replaced_from (proper_merge hedits)
          (disjoint_merge hedits) (fun _ _ _ => Nat.zero_le _) hq hr hne
        apply outputIn_eq_nil_of_replaced (e := m) _ hr
        intro _
        have := (proper_merge hedits m hm).lt
        rw [hlo]
        obtain hbefore | hbehind | rfl := hmerge m hm
        · exact .inl (by omega)
        · subst hd_eq
          exact .inr hbehind
        · exact absurd rfl hne

end LineAt

end Edit

/-! ### What is left of a program -/

namespace Program

open Edit

variable {read : Reader} {p next body : Program} {e : Elision} {switches : Switches}
  {edits : List Edit} {pos line : Nat} {tail indent foot : List Char} {r : Remark} {s : Phrase}
  {f : Compound} {cells : Cells}

/-- Behind a program starts a line, if one starts where the program stands. -/
theorem lineAt_end {text rest : List Char} (h : LineAt text (p.text ++ rest) pos) :
  LineAt text rest (pos + byteLength p.text)
  := by
  induction p generalizing pos rest with
  | nil => exact h
  | blank indent next ih =>
      simp only [Program.text, List.append_assoc, List.cons_append] at h
      rw [end_blank]
      exact ih h.behind
  | remark indent r next ih =>
      simp only [Program.text, List.append_assoc, List.cons_append] at h
      rw [end_remark]
      exact ih h.behind
  | phrase indent s next ih =>
      simp only [Program.text, List.append_assoc, List.cons_append] at h
      rw [end_phrase]
      exact ih h.behind
  | compound indent f body foot next ihbody ih =>
      simp only [Program.text, List.append_assoc, List.cons_append] at h
      rw [end_compound]
      exact ih (ihbody h.behind).behind
  | listing indent f cells next ih =>
      simp only [Program.text, List.append_assoc, List.cons_append] at h
      rw [end_listing]
      exact ih h.behind

/-- A compound statement is a block of lines. -/
theorem text_compound (indent : List Char) (f : Compound) (body : Program) (foot : List Char)
    (next : Program) :
  (compound indent f body foot next).text
    = indent ++ ((f.front ++ '\n' :: (body.text ++ (foot ++ f.back))) ++ '\n' :: next.text)
  := by
  simp [Program.text]

theorem behind_compound (pos : Nat) (indent : List Char) (f : Compound) (body : Program)
    (foot : List Char) :
  behind pos indent (f.front ++ '\n' :: (body.text ++ (foot ++ f.back)))
    = behind (behind pos indent f.front + byteLength body.text) foot f.back
  := by
  have hfeed : '\n'.utf8Size = 1 := rfl
  simp only [behind, byteLength_append, byteLength_cons, hfeed]
  omega

/-- Whether edits that are carried out take out of a program what goes of it, and take nothing else
of its lines.  -/
structure Cut (e : Elision) (switches : Switches) (edits : List Edit) (p : Program)
    (pos line : Nat) (tail : List Char) : Prop where
  sits : p.Sits e switches pos line tail
  start : LineAt e.text (p.text ++ tail) pos
  whole : p.Whole e.ranges line
  holes : p.KeepsHoles e pos
  proper : ∀ edit ∈ edits, edit.Proper e.text
  mem : ∀ edit ∈ p.taken e switches pos, edit ∈ edits
  out : ∀ edit ∈ edits, edit.hi < pos ∨ pos + byteLength p.text ≤ edit.lo ∨
    edit ∈ p.taken e switches pos

/-- Whether what edits leave of a program is the text of another, the trees of which are left of its
own. -/
structure Leaves (e : Elision) (edits : List Edit) (read : Reader) (pos : Nat) (p p' : Program) :
    Prop where
  closed : p'.Closed read
  text : standing e.text edits pos (pos + byteLength p.text) = p'.text
  trees (pos' : Nat) : Tree.shapes (p'.trees pos') = Tree.shapes (e.pruneBlock (p.trees pos))

namespace Cut

/-- What goes of a part of a program is taken out of the part. -/
theorem part {start first : Nat} {rest : List Char} (h : Cut e switches edits p pos line tail)
    (hsits : next.Sits e switches start first rest)
    (hstart : LineAt e.text (next.text ++ rest) start)
    (hwhole : next.Whole e.ranges first) (hholes : next.KeepsHoles e start) (hle : pos ≤ start)
    (hend : start + byteLength next.text ≤ pos + byteLength p.text)
    (hmem : ∀ edit ∈ next.taken e switches start, edit ∈ p.taken e switches pos)
    (hout : ∀ edit ∈ p.taken e switches pos, edit.hi < start ∨
      start + byteLength next.text ≤ edit.lo ∨ edit ∈ next.taken e switches start) :
  Cut e switches edits next start first rest
  where
    sits := hsits
    start := hstart
    whole := hwhole
    holes := hholes
    proper := h.proper
    mem edit hedit := h.mem edit (hmem edit hedit)
    out edit hedit := by
      obtain hlt | hle | hedit := h.out edit hedit
      · exact .inl (by omega)
      · exact .inr (.inl (by omega))
      · exact hout edit hedit

/-- What goes of a program stands in it. -/
theorem bounds {edit : Edit} (h : Cut e switches edits p pos line tail) (hclosed : p.Closed read)
    (hedit : edit ∈ p.taken e switches pos) :
  pos ≤ edit.lo ∧ edit.hi < pos + byteLength p.text
  := (h.sits.takesWithin_of_mem_taken hclosed h.whole hedit).2

/-- What is left of a line and of a program behind it, one after the other. -/
theorem standing_append {code : List Char} {n : Nat} (h : Cut e switches edits p pos line tail)
    (htext : p.text = indent ++ (code ++ '\n' :: next.text)) (hn : n = behind pos indent code) :
  standing e.text edits pos (pos + byteLength p.text)
    = standing e.text edits pos n ++ standing e.text edits n (n + byteLength next.text)
  := by
  have hplaced : ∀ edit ∈ edits, edit.Placed e.text := fun edit hedit =>
    (h.proper edit hedit).placed
  have hstart := h.start
  rw [htext, List.append_assoc, List.append_assoc, List.cons_append] at hstart
  have hend := behind_add pos indent code next.text
  have hbehind := hstart.behind.stands
  rw [htext, ← hend, hn]
  exact Edit.standing_append hplaced hstart.stands.boundary hbehind.boundary hbehind.append.boundary
    (le_behind _ _ _) (Nat.le_add_right _ _)

/-! A part of a program is behind a line of it, or in the lines of a compound statement. -/

theorem blank_next (h : Cut e switches edits (blank indent next) pos line tail)
    (hindent : Indent indent) :
  Cut e switches edits next (behind pos indent []) (line + 1) tail
  := by
  have hstart := h.start
  simp only [Program.text, List.append_assoc, List.cons_append] at hstart
  have hbehind : LineAt e.text (next.text ++ tail) (behind pos indent []) := hstart.behind
  exact h.part (h.sits.blank_next hindent) hbehind h.whole h.holes (le_behind _ _ _)
    (Nat.le_of_eq (end_blank pos indent next).symm) (fun _ hedit => hedit)
    fun _ hedit => .inr (.inr hedit)

theorem remark_next (h : Cut e switches edits (remark indent r next) pos line tail)
    (hindent : Indent indent) :
  Cut e switches edits next (behind pos indent r.code) (line + feeds r.code + 1) tail
  := by
  have hstart := h.start
  simp only [Program.text, List.append_assoc, List.cons_append] at hstart
  apply h.part (h.sits.remark_next hindent) hstart.behind h.whole h.holes (le_behind _ _ _)
    (Nat.le_of_eq (end_remark pos indent r next).symm)
  · exact fun _ hedit => Sits.mem_taken_remark.mpr (.inr hedit)
  · intro edit hedit
    obtain ⟨-, rfl⟩ | hedit := Sits.mem_taken_remark.mp hedit
    · exact .inl (Nat.lt_succ_self _)
    · exact .inr (.inr hedit)

theorem phrase_next (h : Cut e switches edits (phrase indent s next) pos line tail)
    (hindent : Indent indent) (hs : s.Closed read) (hnext : next.Closed read) :
  Cut e switches edits next (behind pos indent s.code) (line + feeds s.code + 1) tail
  := by
  have hstart := h.start
  simp only [Program.text, List.append_assoc, List.cons_append] at hstart
  apply h.part (h.sits.phrase_next hindent) hstart.behind h.whole.2 h.holes (le_behind _ _ _)
    (Nat.le_of_eq (end_phrase pos indent s next).symm)
  · exact fun _ hedit => (h.sits.mem_taken_phrase hindent hs hnext h.whole _).mpr (.inr hedit)
  · intro edit hedit
    obtain ⟨-, rfl⟩ | hedit := (h.sits.mem_taken_phrase hindent hs hnext h.whole _).mp hedit
    · exact .inl (Nat.lt_succ_self _)
    · exact .inr (.inr hedit)

theorem compound_next (h : Cut e switches edits (compound indent f body foot next) pos line tail)
    (hclosed : (compound indent f body foot next).Closed read) :
  Cut e switches edits next (behind (behind pos indent f.front + byteLength body.text) foot f.back)
    (line + feeds f.front + 1 + feeds body.text + feeds f.back + 1) tail
  := by
  obtain ⟨hindent, hfoot, ⟨inner, hf, hbody⟩, hnext⟩ := hclosed
  have hstart := h.start
  rw [text_compound] at hstart
  simp only [List.append_assoc, List.cons_append] at hstart
  have hbehind : LineAt e.text (next.text ++ tail)
      (behind (behind pos indent f.front + byteLength body.text) foot f.back) := by
    rw [← behind_compound]
    have hcode : LineAt e.text (indent ++ ((f.front ++ '\n' :: (body.text ++ (foot ++ f.back)))
        ++ '\n' :: (next.text ++ tail))) pos := by
      simpa using hstart
    exact hcode.behind
  have hle := le_behind (behind pos indent f.front + byteLength body.text) foot f.back
  have hbehind_eq (n : Nat) : behind n foot f.back = n + byteLength foot + byteLength f.back + 1 :=
    rfl
  apply h.part (h.sits.compound_next hindent hfoot hbody) hbehind h.whole.2.2 h.holes.2
    (Nat.le_trans (le_behind pos indent f.front) (by omega))
    (Nat.le_of_eq (end_compound pos indent f body foot next).symm)
  all_goals
    cases hgoes : LineRange.anyContains e.ranges line
      (line + feeds f.front + 1 + feeds body.text + feeds f.back)
  · exact fun _ hedit => (h.sits.mem_taken_compound_kept hindent hfoot hf hbody hnext h.whole hgoes
      _).mpr (.inr hedit)
  · exact fun _ hedit => (h.sits.mem_taken_compound_gone hindent hfoot hf hgoes _).mpr (.inr hedit)
  · intro edit hedit
    obtain hedit | hedit :=
      (h.sits.mem_taken_compound_kept hindent hfoot hf hbody hnext h.whole hgoes _).mp hedit
    · have := ((h.sits.compound_body hindent hnext).takesWithin_of_mem_taken hbody h.whole.2.1 hedit).2.2
      exact .inl (by omega)
    · exact .inr (.inr hedit)
  · intro edit hedit
    obtain (rfl | ⟨d, hd, rfl⟩) | hedit :=
      (h.sits.mem_taken_compound_gone hindent hfoot hf hgoes _).mp hedit
    · exact .inl (Nat.lt_succ_self _)
    · have := hbody.marks_bounds hd
      exact .inl (by simp only [deletion]; omega)
    · exact .inr (.inr hedit)

theorem compound_body (h : Cut e switches edits (compound indent f body foot next) pos line tail)
    (hindent : Indent indent) (hfoot : Indent foot) {inner : Reader} (hf : f.Closed read inner)
    (hbody : body.Closed inner) (hnext : next.Closed read)
    (hkept : LineRange.anyContains e.ranges line
      (line + feeds f.front + 1 + feeds body.text + feeds f.back) = false) :
  Cut e switches edits body (behind pos indent f.front) (line + feeds f.front + 1)
    (foot ++ (f.back ++ '\n' :: (next.text ++ tail)))
  := by
  have hstart := h.start
  simp only [Program.text, List.append_assoc, List.cons_append] at hstart
  have hend := end_compound pos indent f body foot next
  have hle := le_behind (behind pos indent f.front + byteLength body.text) foot f.back
  have hmem := h.sits.mem_taken_compound_kept hindent hfoot hf hbody hnext h.whole hkept
  apply h.part (h.sits.compound_body hindent hnext) hstart.behind h.whole.2.1 h.holes.1
    (le_behind _ _ _) (by omega)
  · exact fun _ hedit => (hmem _).mpr (.inl hedit)
  · intro edit hedit
    obtain hedit | hedit := (hmem _).mp hedit
    · exact .inr (.inr hedit)
    · have := ((h.compound_next ⟨hindent, hfoot, ⟨inner, hf, hbody⟩, hnext⟩).bounds hnext hedit).1
      exact .inr (.inl (by omega))

/-- A line that nothing goes of is left. -/
theorem standing_line {code cs : List Char} (h : Cut e switches edits p pos line tail)
    (htext : p.text = indent ++ (code ++ '\n' :: cs))
    (hout : ∀ edit ∈ p.taken e switches pos, behind pos indent code ≤ edit.lo) :
  standing e.text edits pos (behind pos indent code) = indent ++ (code ++ ['\n'])
  := by
  have hstart := h.start
  rw [htext] at hstart
  simp only [List.append_assoc, List.cons_append] at hstart
  apply hstart.standing_line h.proper
  intro edit hedit
  obtain hlt | hle | hedit := h.out edit hedit
  · exact .inl hlt
  · rw [htext, ← behind_add] at hle
    exact .inr (by omega)
  · exact .inr (hout edit hedit)

/-- Where lines of a program go, what is left is what is left behind them. -/
theorem leaves_gone {code : List Char} {next' : Program} (h : Cut e switches edits p pos line tail)
    (hindent : Indent indent) (htext : p.text = indent ++ (code ++ '\n' :: next.text))
    (hmem : deletion ⟨pos + byteLength indent, pos + byteLength indent + byteLength code⟩
      ∈ p.taken e switches pos)
    (hout : ∀ edit ∈ p.taken e switches pos, behind pos indent code ≤ edit.lo ∨
      pos + byteLength indent ≤ edit.lo ∧ edit.hi ≤ pos + byteLength indent + byteLength code ∧
        edit.replacement = "")
    (htrees : e.pruneBlock (p.trees pos) = e.pruneBlock (next.trees (behind pos indent code)))
    (hnext : Leaves e edits read (behind pos indent code) next next') :
  Leaves e edits read pos p next'
  := by
  have hstart := h.start
  rw [htext] at hstart
  simp only [List.append_assoc, List.cons_append] at hstart
  have hgone := hstart.standing_cut hindent h.proper (h.mem _ hmem) fun edit hedit => by
    obtain hlt | hle | hedit := h.out edit hedit
    · exact .inl hlt
    · rw [htext, ← behind_add] at hle
      exact .inr (.inl (by omega))
    · exact .inr (hout edit hedit)
  refine ⟨hnext.closed, ?_, fun pos' => ?_⟩
  · rw [h.standing_append htext rfl, hgone, hnext.text, List.nil_append]
  · rw [htrees, hnext.trees]

theorem leaves_blank (h : Cut e switches edits (blank indent next) pos line tail)
    (hclosed : (blank indent next).Closed read) {next' : Program}
    (hnext : Leaves e edits read (behind pos indent []) next next') :
  Leaves e edits read pos (blank indent next) (blank indent next')
  := by
  have htext : (blank indent next).text = indent ++ ([] ++ '\n' :: next.text) := rfl
  have hfirst := h.standing_line htext fun edit hedit =>
    ((h.blank_next hclosed.1).bounds hclosed.2 hedit).1
  refine ⟨⟨hclosed.1, hnext.closed⟩, ?_, fun pos' => hnext.trees _⟩
  rw [h.standing_append htext rfl, hfirst, hnext.text, Program.text]
  simp

theorem leaves_remark (h : Cut e switches edits (remark indent r next) pos line tail)
    (hclosed : (remark indent r next).Closed read) {next' : Program}
    (hnext : Leaves e edits read (behind pos indent r.code) next next') :
  ∃ p', Leaves e edits read pos (remark indent r next) p'
  := by
  obtain ⟨hindent, hr, hclosed⟩ := hclosed
  have hbehind {edit : Edit} (hedit : edit ∈ next.taken e switches (behind pos indent r.code)) :=
    ((h.remark_next hindent).bounds hclosed hedit).1
  cases hmark : isDirective r.text switches with
  | true =>
      use next'
      apply h.leaves_gone hindent rfl _ _ rfl hnext
      · exact Sits.mem_taken_remark.mpr (.inl ⟨hmark, rfl⟩)
      · intro edit hedit
        obtain ⟨-, rfl⟩ | hedit := Sits.mem_taken_remark.mp hedit
        · exact .inr ⟨Nat.le_refl _, Nat.le_refl _, rfl⟩
        · exact .inl (hbehind hedit)
  | false =>
      have hfirst := h.standing_line rfl fun edit hedit => by
        obtain ⟨hdirective, -⟩ | hedit := Sits.mem_taken_remark.mp hedit
        · rw [hmark] at hdirective
          contradiction
        · exact hbehind hedit
      refine ⟨remark indent r next', ⟨hindent, hr, hnext.closed⟩, ?_, fun pos' => hnext.trees _⟩
      rw [h.standing_append rfl rfl, hfirst, hnext.text, Program.text]
      simp

theorem leaves_phrase (h : Cut e switches edits (phrase indent s next) pos line tail)
    (hclosed : (phrase indent s next).Closed read) {next' : Program}
    (hnext : Leaves e edits read (behind pos indent s.code) next next') :
  ∃ p', Leaves e edits read pos (phrase indent s next) p'
  := by
  obtain ⟨hindent, hs, hclosed⟩ := hclosed
  have hmem := h.sits.mem_taken_phrase hindent hs hclosed h.whole
  have hbehind {edit : Edit} (hedit : edit ∈ next.taken e switches (behind pos indent s.code)) :=
    ((h.phrase_next hindent hs hclosed).bounds hclosed hedit).1
  have hexcluded := h.sits.excluded_phrase hindent hs
  cases hgoes : LineRange.anyContains e.ranges line (line + feeds s.code) with
  | true =>
      use next'
      apply h.leaves_gone hindent rfl _ _ _ hnext
      · exact (hmem _).mpr (.inl ⟨hgoes, rfl⟩)
      · intro edit hedit
        obtain ⟨-, rfl⟩ | hedit := (hmem _).mp hedit
        · exact .inr ⟨Nat.le_refl _, Nat.le_refl _, rfl⟩
        · exact .inl (hbehind hedit)
      · rw [trees, Elision.pruneBlock, hexcluded, hgoes, if_pos rfl]
  | false =>
      have hfirst := h.standing_line rfl fun edit hedit => by
        obtain ⟨hcontains, -⟩ | hedit := (hmem _).mp hedit
        · rw [hgoes] at hcontains
          contradiction
        · exact hbehind hedit
      refine ⟨phrase indent s next', ⟨hindent, hs, hnext.closed⟩, ?_, fun pos' => ?_⟩
      · rw [h.standing_append rfl rfl, hfirst, hnext.text, Program.text]
        simp
      · have hstays := h.sits.each_phrase hindent hs hclosed h.whole hgoes
        rw [trees, trees, Elision.pruneBlock, hexcluded, hgoes, if_neg Bool.false_ne_true,
          Elision.prune_eq_some _ hstays, Option.getD_some, Tree.shapes, Tree.shapes,
          Tree.shape_move, Tree.shape_move, hnext.trees]

/-- What is left of a compound statement that stays: its front and its back, and what is left of its
body. -/
theorem standing_compound {body' : Program}
    (h : Cut e switches edits (compound indent f body foot next) pos line tail)
    (hindent : Indent indent) (hfoot : Indent foot) {inner : Reader} (hf : f.Closed read inner)
    (hbody : body.Closed inner) (hnext : next.Closed read)
    (hkept : LineRange.anyContains e.ranges line
      (line + feeds f.front + 1 + feeds body.text + feeds f.back) = false)
    (hleaves : Leaves e edits inner (behind pos indent f.front) body body') :
  standing e.text edits pos (behind (behind pos indent f.front + byteLength body.text) foot f.back)
    = indent ++ (f.front ++ '\n' :: (body'.text ++ (foot ++ (f.back ++ ['\n']))))
  := by
  have hplaced : ∀ edit ∈ edits, edit.Placed e.text := fun edit hedit =>
    (h.proper edit hedit).placed
  have hmem := h.sits.mem_taken_compound_kept hindent hfoot hf hbody hnext h.whole hkept
  have hcut := h.compound_body hindent hfoot hf hbody hnext hkept
  have hcut' := h.compound_next ⟨hindent, hfoot, ⟨inner, hf, hbody⟩, hnext⟩
  have hle := le_behind pos indent f.front
  have hle' := le_behind (behind pos indent f.front + byteLength body.text) foot f.back
  have hfirst : standing e.text edits pos (behind pos indent f.front)
      = indent ++ (f.front ++ ['\n']) := by
    refine h.standing_line rfl fun edit hedit => ?_
    obtain hedit | hedit := (hmem edit).mp hedit
    · exact (hcut.bounds hbody hedit).1
    · have := (hcut'.bounds hnext hedit).1
      omega
  have hfoot_start := lineAt_end hcut.start
  have hlast := hfoot_start.standing_line h.proper fun edit hedit => by
    obtain hlt | hle | hedit := h.out edit hedit
    · exact .inl (by omega)
    · rw [end_compound] at hle
      exact .inr (by omega)
    · obtain hedit | hedit := (hmem edit).mp hedit
      · exact .inl (hcut.bounds hbody hedit).2
      · exact .inr (hcut'.bounds hnext hedit).1
  have hpos := h.start.stands.boundary
  have hinside := hcut.start.stands.boundary
  have hbelow := hfoot_start.stands.boundary
  have hbehind := hcut'.start.stands.boundary
  rw [Edit.standing_append hplaced hpos hinside hbehind hle (by omega),
    Edit.standing_append hplaced hinside hbelow hbehind (Nat.le_add_right _ _) hle', hfirst,
    hleaves.text, hlast]
  simp

theorem leaves_compound {next' : Program}
    (h : Cut e switches edits (compound indent f body foot next) pos line tail)
    (hindent : Indent indent) (hfoot : Indent foot) {inner : Reader} (hf : f.Closed read inner)
    (hbody : body.Closed inner) (hclosed : next.Closed read)
    (hnext : Leaves e edits read
      (behind (behind pos indent f.front + byteLength body.text) foot f.back) next next')
    (hleaves : Cut e switches edits body (behind pos indent f.front) (line + feeds f.front + 1)
        (foot ++ (f.back ++ '\n' :: (next.text ++ tail))) →
      ∃ body', Leaves e edits inner (behind pos indent f.front) body body') :
  ∃ p', Leaves e edits read pos (compound indent f body foot next) p'
  := by
  have hcut := h.compound_next ⟨hindent, hfoot, ⟨inner, hf, hbody⟩, hclosed⟩
  have hne : f.back ≠ [] := by
    obtain ⟨cs, hcs⟩ := hf.closes
    simp [hcs]
  have hexcluded := (h.sits.placed_compound hindent hfoot).excluded_fill hf.root hne hf.last .block
    (body.trees (behind pos indent f.front))
  cases hgoes : LineRange.anyContains e.ranges line
      (line + feeds f.front + 1 + feeds body.text + feeds f.back) with
  | true =>
      have hmem := h.sits.mem_taken_compound_gone hindent hfoot hf hgoes
      have hend : pos + byteLength indent
          + byteLength (f.front ++ '\n' :: (body.text ++ (foot ++ f.back)))
          = behind pos indent f.front + byteLength body.text + byteLength foot
            + byteLength f.back := Nat.succ.inj (behind_compound pos indent f body foot)
      use next'
      rw [← behind_compound] at hnext
      apply h.leaves_gone hindent (text_compound _ _ _ _ _) _ _ _ hnext
      · rw [hend]
        exact (hmem _).mpr (.inl (.inl rfl))
      · rw [hend, behind_compound]
        intro edit hedit
        obtain (rfl | ⟨d, hd, rfl⟩) | hedit := (hmem _).mp hedit
        · exact .inr ⟨Nat.le_refl _, Nat.le_refl _, rfl⟩
        · have hbounds := hbody.marks_bounds hd
          rw [behind] at hbounds
          exact .inr ⟨by simp only [deletion]; omega, by simp only [deletion, behind]; omega, rfl⟩
        · exact .inl (hcut.bounds hclosed hedit).1
      · rw [trees, Elision.pruneBlock, hexcluded, hgoes, if_pos rfl, behind_compound]
  | false =>
      obtain ⟨body', hleaves⟩ :=
        hleaves (h.compound_body hindent hfoot hf hbody hclosed hgoes)
      have hkept := h.sits.kept_compound hindent hfoot hbody hclosed h.whole hgoes
      refine ⟨compound indent f body' foot next',
        ⟨hindent, hfoot, ⟨inner, hf, hleaves.closed⟩, hnext.closed⟩, ?_, fun pos' => ?_⟩
      · rw [h.standing_append (text_compound _ _ _ _ _) (behind_compound _ _ _ _ _).symm,
          h.standing_compound hindent hfoot hf hbody hclosed hgoes hleaves, hnext.text,
          Program.text]
        simp
      · rw [trees, trees, Elision.pruneBlock, hexcluded, hgoes, if_neg Bool.false_ne_true,
          hkept.prune_fill hf.sound (by rw [Elision.prune]), Option.getD_some, Tree.shapes,
          Tree.shapes, hnext.trees,
          Around.shape_fill (hleaves.trees (behind pos' indent f.front))]

theorem listing_next (h : Cut e switches edits (listing indent f cells next) pos line tail)
    (hclosed : (listing indent f cells next).Closed read) :
  Cut e switches edits next (behind pos indent (f.code cells))
    (line + feeds f.front + feeds cells.text + feeds f.back + 1) tail
  := by
  obtain ⟨hindent, ⟨member, holes, hf, hcells⟩, hnext⟩ := hclosed
  have hstart := h.start
  simp only [Program.text, List.append_assoc, List.cons_append] at hstart
  have hbehind := behind_code pos indent f cells
  obtain ⟨pre, hpre, hwritten⟩ := h.sits.written_listing hindent hf hcells
  have hmarks {d : Span}
      (hd : d ∈ cells.marks switches (pos + byteLength indent + byteLength f.front)) :
      (deletion d).hi < behind pos indent (f.code cells) := by
    have := bounds_of_mem_marks hd
    simp only [deletion]
    omega
  apply h.part (h.sits.listing_next hindent) hstart.behind h.whole.2 h.holes.2 (le_behind _ _ _)
    (Nat.le_of_eq (end_listing pos indent f cells next).symm)
  all_goals
    cases hgoes : LineRange.anyContains e.ranges line
      (line + feeds f.front + feeds cells.text + feeds f.back)
  · exact fun _ hedit =>
      (h.sits.mem_taken_listing_kept hindent hf hnext h.whole hgoes _).mpr (.inr hedit)
  · exact fun _ hedit => (h.sits.mem_taken_listing_gone hindent hf hgoes _).mpr (.inr hedit)
  · intro edit hedit
    obtain (hedit | ⟨d, hd, rfl⟩) | hedit :=
      (h.sits.mem_taken_listing_kept hindent hf hnext h.whole hgoes _).mp hedit
    · rw [← hpre, Cells.mem_edits_iff (fun l hl => hf.leaf l (hcells.members l hl)) hwritten]
        at hedit
      have := (Elision.proper_of_mem_rowEdits hwritten hedit).2.2
      rw [Cells.text_row] at this
      exact .inl (by omega)
    · exact .inl (hmarks hd)
    · exact .inr (.inr hedit)
  · intro edit hedit
    obtain (rfl | ⟨d, hd, rfl⟩) | hedit :=
      (h.sits.mem_taken_listing_gone hindent hf hgoes _).mp hedit
    · exact .inl (by simp only [deletion]; omega)
    · exact .inl (hmarks hd)
    · exact .inr (.inr hedit)

/-- Edits that are carried out take out of a list what goes of its row and some of its comments. -/
theorem out_listing {member : Leaf → Prop} {holes : Bool} {pre : List Char} {edit : Edit}
    (h : Cut e switches edits (listing indent f cells next) pos line tail) (hindent : Indent indent)
    (hf : f.ClosedList read member holes) (hcells : cells.Sound member holes)
    (hnext : next.Closed read)
    (hkept : LineRange.anyContains e.ranges line
      (line + feeds f.front + feeds cells.text + feeds f.back) = false)
    (hpre : byteLength pre = pos + byteLength indent + byteLength f.front)
    (hwritten : e.Written .list pre (cells.row (byteLength pre))
      (f.back ++ '\n' :: (next.text ++ tail))) (hedit : edit ∈ edits) :
  edit.hi < pos ∨ behind pos indent (f.code cells) ≤ edit.lo ∨
    (∃ c ∈ cells.comments (byteLength pre), edit = ⟨c.span.lo, c.span.hi, ""⟩) ∨
    edit ∈ e.rowEdits (byteLength pre) (cells.row (byteLength pre))
  := by
  have hcut := h.listing_next ⟨hindent, ⟨member, holes, hf, hcells⟩, hnext⟩
  obtain hlt | hle | hedit := h.out edit hedit
  · exact .inl hlt
  · rw [end_listing] at hle
    exact .inr (.inl (by omega))
  obtain (hedit | ⟨d, hd, rfl⟩) | hedit :=
    (h.sits.mem_taken_listing_kept hindent hf hnext h.whole hkept _).mp hedit
  · rw [← hpre, Cells.mem_edits_iff (fun l hl => hf.leaf l (hcells.members l hl)) hwritten] at hedit
    exact .inr (.inr (.inr hedit))
  · obtain ⟨c, hc, rfl⟩ := List.mem_map.mp hd
    rw [← hpre] at hc
    exact .inr (.inr (.inl ⟨c, (List.mem_filter.mp hc).1, rfl⟩))
  · exact .inr (.inl (hcut.bounds hnext hedit).1)

/-- What is left of a list that stays: its members that stay, as they are. -/
theorem exists_standing_cells {member : Leaf → Prop} {holes : Bool}
    (h : Cut e switches edits (listing indent f cells next) pos line tail)
    (hindent : Indent indent) (hf : f.ClosedList read member holes)
    (hcells : cells.Sound member holes) (hnext : next.Closed read)
    (hkept : LineRange.anyContains e.ranges line
      (line + feeds f.front + feeds cells.text + feeds f.back) = false) :
  ∃ cells' : Cells, cells'.Sound member holes ∧
    standing e.text edits (pos + byteLength indent + byteLength f.front)
      (pos + byteLength indent + byteLength f.front + byteLength cells.text) = cells'.text ∧
    ∀ pos', Tree.shapes (cells'.trees pos') = Tree.shapes
      (e.pruneSeparated (cells.trees (pos + byteLength indent + byteLength f.front)))
  := by
  have hbehind := behind_code pos indent f cells
  obtain ⟨pre, hpre, hwritten⟩ := h.sits.written_listing hindent hf hcells
  have hout : ∀ edit ∈ edits, edit.Beside (byteLength pre)
      (byteLength pre + byteLength (cells.row (byteLength pre)).text)
      ((cells.row (byteLength pre)).comments (byteLength pre)) ∨
      edit ∈ e.rowEdits (byteLength pre) (cells.row (byteLength pre)) := by
    intro edit hedit
    rw [Cells.text_row]
    obtain hlt | hle | hcomment | hrow :=
      h.out_listing hindent hf hcells hnext hkept hpre hwritten hedit
    · exact .inl (.inl (by omega))
    · exact .inl (.inr (.inl (by omega)))
    · exact .inl (.inr (.inr hcomment))
    · exact .inr hrow
  have hsound : ∀ l ∈ cells.leaves, l.Sound := fun l hl => hf.leaf l (hcells.members l hl)
  have hin : ∀ edit ∈ e.rowEdits (byteLength pre) (cells.row (byteLength pre)), edit ∈ edits := by
    intro edit hedit
    rw [← Cells.mem_edits_iff hsound hwritten, hpre] at hedit
    exact h.mem edit ((h.sits.mem_taken_listing_kept hindent hf hnext h.whole hkept _).mpr
      (.inl (.inl hedit)))
  obtain ⟨row', hrow', hleft⟩ := Elision.exists_standing_row h.proper hwritten hin hout
  rw [Cells.text_row] at hrow'
  obtain ⟨cells', htext, hsound', htrees⟩ := Cells.exists_left hcells hf.leaf hleft
    (fun i hi hstays i' hremains => by
      obtain ⟨l, hl, n, rfl⟩ := Cells.exists_leaf_of_mem_items hi
      exact Elision.text_of_remains hwritten hi hstays (Cells.edits_visit_leaf (hsound l hl) "null")
        h.proper hout hremains) (hpre ▸ h.holes.1)
  rw [hpre] at hrow' htrees
  exact ⟨cells', hsound', hrow'.trans htext.symm, htrees⟩

/-- Edits that are carried out take nothing out of the front and the back of a statement around a list
that stays. -/
theorem apart_listing {member : Leaf → Prop} {holes : Bool} {edit : Edit}
    (h : Cut e switches edits (listing indent f cells next) pos line tail) (hindent : Indent indent)
    (hf : f.ClosedList read member holes) (hcells : cells.Sound member holes)
    (hnext : next.Closed read)
    (hkept : LineRange.anyContains e.ranges line
      (line + feeds f.front + feeds cells.text + feeds f.back) = false) (hedit : edit ∈ edits) :
  edit.hi < pos ∨ behind pos indent (f.code cells) ≤ edit.lo ∨
    pos + byteLength indent + byteLength f.front ≤ edit.lo ∧
      edit.hi ≤ pos + byteLength indent + byteLength f.front + byteLength cells.text
  := by
  obtain ⟨pre, hpre, hwritten⟩ := h.sits.written_listing hindent hf hcells
  rw [← hpre]
  obtain hlt | hle | ⟨c, hc, rfl⟩ | hrow :=
    h.out_listing hindent hf hcells hnext hkept hpre hwritten hedit
  · exact .inl hlt
  · exact .inr (.inl hle)
  · have hbounds := Cells.comments_bounds hc
    exact .inr (.inr ⟨hbounds.1, hbounds.2.2⟩)
  · have hbounds := (Elision.proper_of_mem_rowEdits hwritten hrow).2
    rw [Cells.text_row] at hbounds
    exact .inr (.inr hbounds)

theorem standing_front {member : Leaf → Prop} {holes : Bool}
    (h : Cut e switches edits (listing indent f cells next) pos line tail) (hindent : Indent indent)
    (hf : f.ClosedList read member holes) (hcells : cells.Sound member holes)
    (hnext : next.Closed read)
    (hkept : LineRange.anyContains e.ranges line
      (line + feeds f.front + feeds cells.text + feeds f.back) = false) :
  standing e.text edits pos (pos + byteLength indent + byteLength f.front) = indent ++ f.front
  := by
  have hstart := h.start
  simp only [Program.text, Compound.code, List.append_assoc, List.cons_append] at hstart
  rw [← List.append_assoc indent] at hstart
  rw [Nat.add_assoc, ← byteLength_append]
  have hbehind := behind_code pos indent f cells
  apply hstart.standing_eq h.proper
  · intro edit hedit
    have := h.apart_listing hindent hf hcells hnext hkept hedit
    rw [byteLength_append]
    omega
  · obtain ⟨c, hc, hink⟩ := hf.opens
    exact ⟨c, by rw [List.getLast?_append, hc]; rfl, .inl hink⟩

theorem standing_back {member : Leaf → Prop} {holes : Bool}
    (h : Cut e switches edits (listing indent f cells next) pos line tail) (hindent : Indent indent)
    (hf : f.ClosedList read member holes) (hcells : cells.Sound member holes)
    (hnext : next.Closed read)
    (hkept : LineRange.anyContains e.ranges line
      (line + feeds f.front + feeds cells.text + feeds f.back) = false) :
  standing e.text edits (pos + byteLength indent + byteLength f.front + byteLength cells.text)
    (behind pos indent (f.code cells)) = f.back ++ ['\n']
  := by
  have hfeed : '\n'.utf8Size = 1 := rfl
  have hbehind := behind_code pos indent f cells
  have hstart := h.start
  simp only [Program.text, Compound.code, List.append_assoc, List.cons_append] at hstart
  have hstands : Stands e.text ((f.back ++ ['\n']) ++ (next.text ++ tail))
      (pos + byteLength indent + byteLength f.front + byteLength cells.text) := by
    simpa using hstart.stands.append.append.append
  have hend : behind pos indent (f.code cells) = pos + byteLength indent + byteLength f.front
      + byteLength cells.text + byteLength (f.back ++ ['\n']) := by
    rw [hbehind, byteLength_append, byteLength_cons, hfeed]
    rfl
  rw [hend]
  apply standing_of_ink h.proper hstands
  · rintro edit hedit n hle hlt ⟨hcovers, hcovers'⟩
    have := h.apart_listing hindent hf hcells hnext hkept hedit
    omega
  · obtain ⟨c, cs, hcs, hink, -⟩ := hf.closes
    exact ⟨c, by rw [hcs]; rfl, hink⟩
  · exact ⟨'\n', by simp, .inr rfl⟩

/-- What is left of a statement around a list that stays: its front and its back, and what is left
of the list. -/
theorem standing_listing {member : Leaf → Prop} {holes : Bool} {cells' : Cells}
    (h : Cut e switches edits (listing indent f cells next) pos line tail)
    (hindent : Indent indent) (hf : f.ClosedList read member holes)
    (hcells : cells.Sound member holes) (hnext : next.Closed read)
    (hkept : LineRange.anyContains e.ranges line
      (line + feeds f.front + feeds cells.text + feeds f.back) = false)
    (hcells' : standing e.text edits (pos + byteLength indent + byteLength f.front)
      (pos + byteLength indent + byteLength f.front + byteLength cells.text) = cells'.text) :
  standing e.text edits pos (behind pos indent (f.code cells))
    = indent ++ (f.code cells' ++ ['\n'])
  := by
  have hplaced : ∀ edit ∈ edits, edit.Placed e.text := fun edit hedit =>
    (h.proper edit hedit).placed
  have hbehind := behind_code pos indent f cells
  have hstart := h.start
  simp only [Program.text, List.append_assoc, List.cons_append] at hstart
  have hend := hstart.behind.stands.boundary
  simp only [Compound.code, List.append_assoc] at hstart
  have hlist := hstart.stands.append.append
  rw [Edit.standing_append hplaced hstart.stands.boundary hlist.boundary hend (by omega) (by omega),
    Edit.standing_append hplaced hlist.boundary hlist.append.boundary hend (Nat.le_add_right _ _)
      (by omega), h.standing_front hindent hf hcells hnext hkept, hcells',
    h.standing_back hindent hf hcells hnext hkept]
  simp [Compound.code]

theorem leaves_listing {next' : Program}
    (h : Cut e switches edits (listing indent f cells next) pos line tail)
    (hclosed : (listing indent f cells next).Closed read)
    (hnext : Leaves e edits read (behind pos indent (f.code cells)) next next') :
  ∃ p', Leaves e edits read pos (listing indent f cells next) p'
  := by
  have hcut := h.listing_next hclosed
  obtain ⟨hindent, ⟨member, holes, hf, hcells⟩, hclosed⟩ := hclosed
  have hne : f.back ≠ [] := by
    obtain ⟨c, cs, hcs, -⟩ := hf.closes
    simp [hcs]
  have hexcluded := (h.sits.placed_listing hindent).excluded_fill hf.root hne hf.last .list
    (cells.trees (pos + byteLength indent + byteLength f.front))
  cases hgoes : LineRange.anyContains e.ranges line
      (line + feeds f.front + feeds cells.text + feeds f.back) with
  | true =>
      have hmem := h.sits.mem_taken_listing_gone hindent hf hgoes
      have hend : pos + byteLength indent + byteLength (f.code cells) = pos + byteLength indent
          + byteLength f.front + byteLength cells.text + byteLength f.back :=
        Nat.succ.inj (behind_code pos indent f cells)
      use next'
      apply h.leaves_gone hindent rfl _ _ _ hnext
      · rw [hend]
        exact (hmem _).mpr (.inl (.inl rfl))
      · rw [hend]
        intro edit hedit
        obtain (rfl | ⟨d, hd, rfl⟩) | hedit := (hmem _).mp hedit
        · exact .inr ⟨Nat.le_refl _, Nat.le_refl _, rfl⟩
        · have hbounds := bounds_of_mem_marks hd
          exact .inr ⟨by simp only [deletion]; omega, by simp only [deletion]; omega, rfl⟩
        · exact .inl (hcut.bounds hclosed hedit).1
      · rw [trees, Elision.pruneBlock, hexcluded, hgoes, if_pos rfl]
  | false =>
      obtain ⟨cells', hsound, hstanding, htrees⟩ :=
        h.exists_standing_cells hindent hf hcells hclosed hgoes
      have hkept := h.sits.kept_listing hindent hclosed h.whole hgoes
      refine ⟨listing indent f cells' next',
        ⟨hindent, ⟨member, holes, hf, hsound⟩, hnext.closed⟩, ?_, fun pos' => ?_⟩
      · rw [h.standing_append rfl rfl,
          h.standing_listing hindent hf hcells hclosed hgoes hstanding, hnext.text, Program.text]
        simp
      · rw [trees, trees, Elision.pruneBlock, hexcluded, hgoes, if_neg Bool.false_ne_true,
          hkept.prune_fill hf.sound (by rw [Elision.prune]), Option.getD_some, Tree.shapes,
          Tree.shapes, hnext.trees, Around.shape_fill (htrees _)]

/-- What is left of a program of which statements, members of lists and directives go is a program.
-/
theorem exists_leaves (h : Cut e switches edits p pos line tail) (hclosed : p.Closed read) :
  ∃ p', Leaves e edits read pos p p'
  := by
  induction p generalizing read pos line tail with
  | nil => exact ⟨nil, hclosed, standing_of_le (Nat.le_refl _), fun _ => rfl⟩
  | blank indent next ih =>
      obtain ⟨next', hnext⟩ := ih (h.blank_next hclosed.1) hclosed.2
      exact ⟨_, h.leaves_blank hclosed hnext⟩
  | remark indent r next ih =>
      obtain ⟨next', hnext⟩ := ih (h.remark_next hclosed.1) hclosed.2.2
      exact h.leaves_remark hclosed hnext
  | phrase indent s next ih =>
      obtain ⟨next', hnext⟩ := ih (h.phrase_next hclosed.1 hclosed.2.1 hclosed.2.2) hclosed.2.2
      exact h.leaves_phrase hclosed hnext
  | compound indent f body foot next ihbody ih =>
      have hcut := h.compound_next hclosed
      obtain ⟨hindent, hfoot, ⟨inner, hf, hbody⟩, hclosed⟩ := hclosed
      obtain ⟨next', hnext⟩ := ih hcut hclosed
      exact h.leaves_compound hindent hfoot hf hbody hclosed hnext fun hinside =>
        ihbody hinside hbody
  | listing indent f cells next ih =>
      obtain ⟨next', hnext⟩ := ih (h.listing_next hclosed) hclosed.2.2
      exact h.leaves_listing hclosed hnext

end Cut

end Program

end Prune
