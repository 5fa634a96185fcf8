import Mathlib.Data.List.Basic
import Prune.Proofs.Elision.Staying
import Prune.Proofs.Program.Basic
import Prune.Proofs.Text.Offsets

/-!
# Bytes and lines

A place in a text is told by its byte and by its line (`Elision.At`), and going on over some
characters moves both: the line by the line feeds among them (`Elision.At.append`).  So the lines of
a span in a program follow from where the program starts (`Elision.At.linesOf_eq`), and what stands
on lines that no range meets stays (`Elision.At.stays`).
-/

namespace Prune

open Text Source

variable {text pre mid rest cs : List Char} {starts : List Nat} {pos start line lo hi : Nat}

/-! ### Line feeds and starts of lines -/

theorem feeds_append (cs ds : List Char) :
  feeds (cs ++ ds) = feeds cs + feeds ds
  := List.count_append

theorem feeds_feed (cs : List Char) :
  feeds ('\n' :: cs) = feeds cs + 1
  := List.count_cons_self

/-- The more bytes of a text, the more line feeds. -/
theorem feeds_takeBytes_mono {m n : Nat} (h : m ≤ n) (cs : List Char) :
  feeds (takeBytes m cs) ≤ feeds (takeBytes n cs)
  := by
  apply List.Sublist.count_le
  induction cs generalizing m n with
  | nil => simp
  | cons c cs ih =>
      simp only [takeBytes, beq_iff_eq]
      split
      · exact List.nil_sublist _
      · rw [if_neg (by omega)]
        exact (ih (by omega)).cons_cons c

theorem feeds_takeBytes_le (n : Nat) (cs : List Char) :
  feeds (takeBytes n cs) ≤ feeds cs
  := by
  have hmono := feeds_takeBytes_mono (Nat.le_max_left n (byteLength cs)) cs
  rw [Edit.takeBytes_of_le (Nat.le_max_right _ _)] at hmono
  exact hmono

theorem byteLength_pos (h : cs ≠ []) :
  0 < byteLength cs
  := by
  cases cs with
  | nil => contradiction
  | cons c cs =>
      have := c.utf8Size_pos
      rw [byteLength_cons]
      omega

theorem Indent.noReturn {blanks : List Char} (h : Indent blanks) :
  '\r' ∉ blanks
  := by
  intro hmem
  obtain h | h := h _ hmem <;> simp at h

namespace Program

theorem behind_add (pos : Nat) (indent code cs : List Char) :
  behind pos indent code + byteLength cs
    = pos + byteLength (indent ++ (code ++ '\n' :: cs))
  := by
  have hfeed : '\n'.utf8Size = 1 := rfl
  simp only [behind, byteLength_append, byteLength_cons, hfeed]
  omega

theorem le_behind (pos : Nat) (indent code : List Char) :
  pos ≤ behind pos indent code
  := by
  rw [behind]
  omega

/-! Where a program ends is where what is behind its first line ends. -/

theorem end_blank (pos : Nat) (indent : List Char) (next : Program) :
  pos + byteLength (blank indent next).text = behind pos indent [] + byteLength next.text
  := (behind_add pos indent [] next.text).symm

theorem end_remark (pos : Nat) (indent : List Char) (r : Remark) (next : Program) :
  pos + byteLength (remark indent r next).text = behind pos indent r.code + byteLength next.text
  := (behind_add pos indent r.code next.text).symm

theorem end_phrase (pos : Nat) (indent : List Char) (s : Phrase) (next : Program) :
  pos + byteLength (phrase indent s next).text = behind pos indent s.code + byteLength next.text
  := (behind_add pos indent s.code next.text).symm

theorem end_compound (pos : Nat) (indent : List Char) (f : Compound) (body : Program)
    (foot : List Char) (next : Program) :
  pos + byteLength (compound indent f body foot next).text
    = behind (behind pos indent f.front + byteLength body.text) foot f.back + byteLength next.text
  := by
  rw [text, behind_add, ← behind_add, byteLength_append, Nat.add_assoc]

theorem end_listing (pos : Nat) (indent : List Char) (f : Compound) (cells : Cells)
    (next : Program) :
  pos + byteLength (listing indent f cells next).text
    = behind pos indent (f.code cells) + byteLength next.text
  := (behind_add pos indent (f.code cells) next.text).symm

theorem behind_code (pos : Nat) (indent : List Char) (f : Compound) (cells : Cells) :
  behind pos indent (f.code cells) = pos + byteLength indent + byteLength f.front
    + byteLength cells.text + byteLength f.back + 1
  := by
  rw [behind, Compound.code, byteLength_append, byteLength_append]
  omega

theorem feeds_code (line : Nat) (f : Compound) (cells : Cells) :
  line + feeds (f.code cells) = line + feeds f.front + feeds cells.text + feeds f.back
  := by
  rw [Compound.code, feeds_append, feeds_append]
  omega

end Program

theorem lt_of_mem_lineStartsFrom (h : pos ∈ lineStartsFrom start cs) :
  start < pos
  := by
  induction cs generalizing start with
  | nil => simp [lineStartsFrom] at h
  | cons c cs ih =>
      have := c.utf8Size_pos
      rw [lineStartsFrom] at h
      split at h
      · obtain rfl | h := List.mem_cons.mp h
        · omega
        · exact Nat.lt_trans (by omega) (ih h)
      · exact Nat.lt_trans (by omega) (ih h)

/-- In a text without carriage returns, as many lines start up to a place as line feeds stand before
it. -/
theorem countP_lineStartsFrom (hreturn : '\r' ∉ pre) :
  (lineStartsFrom start (pre ++ rest)).countP (· ≤ start + byteLength pre) = feeds pre
  := by
  induction pre generalizing start with
  | nil =>
      rw [List.nil_append, byteLength_nil, Nat.add_zero, feeds, List.count_nil, List.countP_eq_zero]
      intro pos hpos
      have := lt_of_mem_lineStartsFrom hpos
      simpa using this
  | cons c pre ih =>
      obtain ⟨hc, hpre⟩ := not_or.mp (mt List.mem_cons.mpr hreturn)
      have ih := @ih (start + c.utf8Size) hpre
      rw [Nat.add_assoc] at ih
      have hcr : (c == '\r') = false := beq_eq_false_iff_ne.mpr (Ne.symm hc)
      rw [List.cons_append, lineStartsFrom, byteLength_cons, hcr, Bool.false_and, Bool.or_false]
      split
      · next hfeed =>
        obtain rfl := eq_of_beq hfeed
        rw [List.countP_cons_of_pos (by simp), ih, feeds_feed]
      · next hfeed =>
        rw [ih, feeds, feeds, List.count_cons_of_ne]
        simpa using hfeed

theorem linesOf_of_lt (starts : List Nat) (h : lo < hi) :
  linesOf starts ⟨lo, hi⟩ = (lineAt starts lo, lineAt starts (hi - 1))
  := by
  rw [linesOf, if_pos h]

theorem lineAt_mono (starts : List Nat) (h : lo ≤ hi) :
  lineAt starts lo ≤ lineAt starts hi
  := by
  apply Nat.add_le_add_left
  apply List.countP_mono_left
  intro pos _ hpos
  simp only [decide_eq_true_eq] at *
  omega

/-! ### Places -/

theorem Elision.excluded_eq (e : Elision) (s : Span) :
  e.excluded s = LineRange.anyContains e.ranges (linesOf e.starts s).1 (linesOf e.starts s).2
  := rfl

/-- Whether some characters stand at a byte and a line of the text of an elision, in which no
carriage returns stand. -/
structure Elision.At (e : Elision) (pos line : Nat) (cs : List Char) : Prop where
  starts : e.starts = lineStartsFrom 0 e.text
  noReturn : '\r' ∉ e.text
  stands : Stands e.text cs pos
  line : lineAt e.starts pos = line

namespace Elision.At

variable {e : Elision}

theorem whole (hstarts : e.starts = lineStartsFrom 0 e.text) (hreturn : '\r' ∉ e.text) :
  e.At 0 1 e.text
  := by
  refine ⟨hstarts, hreturn, Stands.zero _, ?_⟩
  have h := @countP_lineStartsFrom [] e.text 0 (by simp)
  rw [hstarts, lineAt]
  rw [List.nil_append] at h
  simpa [feeds] using h

/-- The byte and the line behind some characters. -/
theorem append (h : e.At pos line (mid ++ rest)) :
  e.At (pos + byteLength mid) (line + feeds mid) rest
  := by
  refine ⟨h.starts, h.noReturn, h.stands.append, ?_⟩
  obtain ⟨pre, htext, rfl⟩ := h.stands
  have hreturn := h.noReturn
  rw [htext] at hreturn
  simp only [List.mem_append, not_or] at hreturn
  have hpre := @countP_lineStartsFrom pre (mid ++ rest) 0 hreturn.1
  have hmid := @countP_lineStartsFrom (pre ++ mid) rest 0 (by simp [hreturn])
  rw [List.append_assoc, ← htext, ← h.starts, Nat.zero_add] at hmid
  rw [← htext, ← h.starts, Nat.zero_add] at hpre
  have hline := h.line
  rw [lineAt] at hline
  rw [byteLength_append, feeds_append] at hmid
  rw [lineAt, hmid]
  omega

theorem indent {blanks : List Char} (h : e.At pos line (blanks ++ rest))
    (hblanks : Indent blanks) :
  e.At (pos + byteLength blanks) line rest
  := by
  have hfeeds : feeds blanks = 0 := by
    apply List.count_eq_zero.mpr
    intro hfeed
    obtain h | h := hblanks _ hfeed <;> simp at h
  simpa [hfeeds] using h.append

theorem feed (h : e.At pos line ('\n' :: rest)) :
  e.At (pos + 1) (line + 1) rest
  := by
  have h : e.At pos line (['\n'] ++ rest) := h
  exact h.append

/-- The byte and the line behind a line. -/
theorem behind {blanks : List Char} (h : e.At pos line (blanks ++ (mid ++ '\n' :: rest)))
    (hblanks : Indent blanks) :
  e.At (Program.behind pos blanks mid) (line + feeds mid + 1) rest
  := (h.indent hblanks).append.feed

/-- The lines of a span in some characters. -/
theorem linesOf_bounds (h : e.At pos line (mid ++ rest)) (s : Span) (hlo : pos ≤ s.lo)
    (hle : s.lo ≤ pos + byteLength mid) (hhi : s.hi ≤ pos + byteLength mid) :
  line ≤ (linesOf e.starts s).1 ∧ (linesOf e.starts s).1 ≤ line + feeds mid ∧
    line ≤ (linesOf e.starts s).2 ∧ (linesOf e.starts s).2 ≤ line + feeds mid
  := by
  have hstart := h.line
  have hend := h.append.line
  rw [← hend, ← hstart, linesOf]
  refine ⟨lineAt_mono _ hlo, lineAt_mono _ hle, lineAt_mono _ ?_, lineAt_mono _ ?_⟩
  · split <;> omega
  · split <;> omega

/-- The lines of the whole of some characters that do not end with a line feed. -/
theorem linesOf_eq (h : e.At pos line (mid ++ rest)) (hne : mid ≠ [])
    (hlast : mid.getLast? ≠ some '\n') :
  linesOf e.starts ⟨pos, pos + byteLength mid⟩ = (line, line + feeds mid)
  := by
  obtain ⟨init, c, rfl⟩ : ∃ init c, mid = init ++ [c] :=
    ⟨mid.dropLast, mid.getLast hne, (List.dropLast_append_getLast hne).symm⟩
  have hc : c ≠ '\n' := by
    simpa using hlast
  have hpos := c.utf8Size_pos
  have hfeeds : feeds (init ++ [c]) = feeds init := by
    rw [feeds_append, feeds, feeds, List.count_cons_of_ne hc, List.count_nil, Nat.add_zero]
  have hinit : e.At pos line (init ++ ([c] ++ rest)) := by
    rw [← List.append_assoc]
    exact h
  have hbefore := hinit.append.line
  have hbehind := h.append.line
  rw [hfeeds] at hbehind
  rw [byteLength_append, byteLength_cons, byteLength_nil] at hbehind
  rw [byteLength_append, byteLength_cons, byteLength_nil, linesOf_of_lt _ (by omega), h.line,
    hfeeds]
  congr 1
  apply Nat.le_antisymm
  · rw [← hbehind]
    apply lineAt_mono
    omega
  · rw [← hbefore]
    apply lineAt_mono
    omega

/-- What stands in some characters stays, if no range meets their lines, and no directive stands in
them. -/
theorem stays (h : e.At pos line (mid ++ rest))
    (hranges : ∀ r ∈ e.ranges, r.first ≤ line + feeds mid → ¬line ≤ r.last)
    (hdirectives : ∀ d ∈ e.directives, ¬(pos ≤ d.lo ∧ d.hi ≤ pos + byteLength mid)) {s : Span}
    (hlo : s.lo ≤ byteLength mid) (hhi : s.hi ≤ byteLength mid) :
  e.Stays (s.move pos)
  := by
  have hlo' : (s.move pos).lo = pos + s.lo := rfl
  have hhi' : (s.move pos).hi = pos + s.hi := rfl
  constructor
  · obtain ⟨hge, hle, hge', hle'⟩ := h.linesOf_bounds (s.move pos) (by omega) (by omega) (by omega)
    rw [excluded_eq, LineRange.anyContains, List.any_eq_false]
    intro r hr hcontains
    rw [LineRange.contains, Bool.and_eq_true, decide_eq_true_eq, decide_eq_true_eq] at hcontains
    exact hranges r hr (by omega) (by omega)
  · rw [Elision.holdsDirectives, Bool.and_eq_false_iff]
    left
    rw [List.any_eq_false]
    intro d hd hinside
    rw [Span.inside, Bool.and_eq_true, decide_eq_true_eq, decide_eq_true_eq] at hinside
    exact hdirectives d hd (by omega)

end Elision.At

end Prune
