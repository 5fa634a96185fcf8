import Mathlib.Data.List.Basic
import Prune.Proofs.Edit.Untouched
import Prune.Proofs.Text.Lines

/-!
# Deletions and lines

What is left of a text when deletions are carried out that do not run into each other even when they
are widened: the characters that none of the widened deletions takes out (`Edit.spares`,
`Edit.toList_applyAll_of_apart`).

Deletions that run from the first to the last ink of blocks of lines take out these lines and leave the
others as they are (`Edit.toList_applyAll_blocks`).
-/

namespace Prune

open Text

namespace Edit

variable {text : List Char} {e m : Edit} {es edits : List Edit} {lo hi pos cursor : Nat} {c : Char}

/-! ### Deletions that stay apart -/

/-- Whether edits leave what stands at an offset even when they are widened. -/
def spares (text : List Char) (es : List Edit) (pos : Nat) : Bool :=
  es.all fun e => !decide ((e.widen text).Covers pos)

theorem spares_iff :
  spares text es pos = true ↔ ∀ e ∈ es, ¬(e.widen text).Covers pos
  := by
  simp [spares]

/-- Deletions that stay apart when they are widened leave what none of them takes out then. -/
theorem flatMap_output_of_apart (hes : ∀ e ∈ es, e.Placed text)
    (hdeletions : ∀ e ∈ es, e.replacement = "")
    (happart : es.Pairwise fun a b => (a.widen text).hi ≤ (b.widen text).lo)
    (hcursor : Boundary text cursor) (hstart : ∀ e ∈ es, cursor ≤ (e.widen text).lo) :
  (piecesFrom text cursor es).flatMap (Piece.output text)
    = ((locatedIn text cursor (byteLength text)).filter fun p => spares text es p.1).map Prod.snd
  := by
  have hend : Boundary text (byteLength text) := ⟨[], text, by simp⟩
  induction es generalizing cursor with
  | nil =>
      rw [piecesFrom, List.flatMap_singleton, Piece.output, ← map_locatedIn hcursor hend]
      simp [spares]
  | cons e es ih =>
      obtain ⟨he, hes⟩ := List.forall_mem_cons.mp hes
      obtain ⟨hr, hdeletions⟩ := List.forall_mem_cons.mp hdeletions
      obtain ⟨happart_e, happart⟩ := List.pairwise_cons.mp happart
      obtain ⟨hstart_e, -⟩ := List.forall_mem_cons.mp hstart
      obtain ⟨hle, hlo, hhi⟩ := (widened_widen he).placed
      have hsplit : locatedIn text cursor (byteLength text)
          = locatedIn text cursor (e.widen text).lo
            ++ locatedIn text (e.widen text).lo (e.widen text).hi
            ++ locatedIn text (e.widen text).hi (byteLength text) := by
        rw [locatedIn_append (Nat.le_trans hstart_e hle) hhi.le_byteLength,
          locatedIn_append hstart_e hle]
      have hbefore : (locatedIn text cursor (e.widen text).lo).filter
          (fun p => spares text (e :: es) p.1) = locatedIn text cursor (e.widen text).lo := by
        apply List.filter_eq_self.mpr
        intro p hp
        have := (mem_locatedIn hp).2.2
        rw [spares_iff]
        intro e' he'
        have hle' : (e.widen text).lo ≤ (e'.widen text).lo := by
          obtain rfl | he' := List.mem_cons.mp he'
          · exact Nat.le_refl _
          · exact Nat.le_trans hle (happart_e e' he')
        simp only [Covers]
        omega
      have hinside : (locatedIn text (e.widen text).lo (e.widen text).hi).filter
          (fun p => spares text (e :: es) p.1) = [] := by
        apply List.filter_eq_nil_iff.mpr
        intro p hp
        rw [spares_iff]
        intro hall
        exact hall e List.mem_cons_self (mem_locatedIn hp).2
      have hbehind : (locatedIn text (e.widen text).hi (byteLength text)).filter
          (fun p => spares text (e :: es) p.1)
            = (locatedIn text (e.widen text).hi (byteLength text)).filter
              fun p => spares text es p.1 := by
        apply List.filter_congr
        intro p hp
        have hnot : ¬(e.widen text).Covers p.1 := by
          have := (mem_locatedIn hp).2.1
          simp only [Covers]
          omega
        simp [spares, hnot]
      rw [piecesFrom, List.flatMap_cons, List.flatMap_cons, replacement_widen, hr,
        Nat.max_eq_left hstart_e, Nat.max_eq_right (Nat.le_trans hstart_e hle),
        ih hes hdeletions happart hhi happart_e, hsplit, List.filter_append, List.filter_append,
        hbefore, hinside, hbehind, List.append_nil, List.map_append, map_locatedIn hcursor hlo]
      rfl

/-- Deletions that stay apart when they are widened leave what none of them takes out then. -/
theorem toList_applyAll_of_apart {text : String} (hedits : ∀ e ∈ edits, e.Placed text.toList)
    (hdeletions : ∀ e ∈ edits, e.replacement = "")
    (happart : (merge (sortBy precedes edits)).Pairwise fun a b =>
      (a.widen text.toList).hi ≤ (b.widen text.toList).lo) :
  (applyAll text edits).toList
    = ((located 0 text.toList).filter fun p =>
        spares text.toList (merge (sortBy precedes edits)) p.1).map Prod.snd
  := by
  have hmerge : ∀ m ∈ merge (sortBy precedes edits), m.replacement = "" := by
    apply forall_merge
    · exact fun _ _ ha _ => ha
    · exact fun e he => hdeletions e (mem_sortBy_iff.mp he)
  have hwhole : locatedIn text.toList 0 (byteLength text.toList) = located 0 text.toList := by
    have hstands : Stands text.toList (text.toList ++ []) 0 := by
      rw [List.append_nil]
      apply Stands.zero
    exact locatedIn_of_stands hstands (Nat.zero_add _).symm
  rw [toList_applyAll, pieces, flatMap_output_of_apart (placed_merge hedits) hmerge happart
    (Stands.zero _).boundary fun _ _ => Nat.zero_le _, hwhole]

/-- Deletions with something between any two of them are not joined. -/
theorem merge_eq_self (hes : es.Pairwise fun a b => a.hi < b.lo) :
  merge es = es
  := by
  have hfrom (e : Edit) (es : List Edit) (hes : (e :: es).Pairwise fun a b => a.hi < b.lo) :
      mergeFrom e es = e :: es := by
    induction es generalizing e with
    | nil => rfl
    | cons e' es ih =>
        obtain ⟨he, hes⟩ := List.pairwise_cons.mp hes
        have hlt := he e' List.mem_cons_self
        have hjoins : ¬e.joins e' = true := by
          rw [joins_iff]
          omega
        rw [mergeFrom, if_neg hjoins, ih e' hes]
  cases es with
  | nil => rfl
  | cons e es => exact hfrom e es hes

/-! ### Blocks of lines -/

/-- What is kept of a text of which each line is kept or not is the lines that are. -/
theorem map_filter_located_flatten (keep keepLine : Nat → Bool) {ls : List (List Char)} {n start : Nat}
    (h : ∀ i, ∀ pos, start + lineStart ls i ≤ pos → pos < start + lineStart ls (i + 1) →
      keep pos = keepLine (n + i)) :
  ((located start ls.flatten).filter fun p => keep p.1).map Prod.snd
    = ((ls.zipIdx n).filter fun l => keepLine l.2).flatMap Prod.fst
  := by
  induction ls generalizing n start with
  | nil => rfl
  | cons line ls ih =>
      have hfirst : ∀ p ∈ located start line, keep p.1 = keepLine n := by
        intro p hp
        obtain ⟨hle, hlt⟩ := offset_of_mem_located hp
        apply h 0 p.1
        · exact hle
        · rw [lineStart_cons]
          exact Nat.lt_of_lt_of_le hlt (by omega)
      have hrest := @ih (n + 1) (start + byteLength line) fun i pos hle hlt => by
        rw [Nat.add_assoc, Nat.add_comm 1 i]
        apply h (i + 1) pos
        · rw [lineStart_cons]
          omega
        · rw [lineStart_cons]
          omega
      rw [List.flatten_cons, located_append, List.filter_append, List.map_append, hrest,
        List.zipIdx_cons, List.filter_cons]
      cases hline : keepLine n with
      | true =>
          have hall : (located start line).filter (fun p => keep p.1) = located start line :=
            List.filter_eq_self.mpr fun p hp => by rw [hfirst p hp, hline]
          rw [hall, map_located]
          rfl
      | false =>
          have hnone : (located start line).filter (fun p => keep p.1) = [] :=
            List.filter_eq_nil_iff.mpr fun p hp => by simp [hfirst p hp, hline]
          rw [hnone]
          rfl

/-- The lines from one to another of a text, which are counted from 0. -/
structure LineBlock where
  first : Nat
  last : Nat

namespace LineBlock

/-- Whether a line is one of a block. -/
def Has (b : LineBlock) (n : Nat) : Prop :=
  b.first ≤ n ∧ n ≤ b.last

instance (b : LineBlock) (n : Nat) : Decidable (b.Has n) :=
  inferInstanceAs (Decidable (_ ∧ _))

/-- Whether two blocks have no line in common. -/
def Apart (a b : LineBlock) : Prop :=
  a.last < b.first ∨ b.last < a.first

/-- Whether the first and the last line of a block are lines of a text, and not blank. -/
structure Inked (ls : List (List Char)) (b : LineBlock) : Prop where
  le : b.first ≤ b.last
  first : ∃ c ∈ ls.getD b.first [], isBlank c = false
  last : ∃ c ∈ ls.getD b.last [], isBlank c = false

/-- The deletion from the first to the last ink of a block. -/
def deletion (ls : List (List Char)) (b : LineBlock) : Edit where
  lo := lineStart ls b.first + byteLength ((ls.getD b.first []).takeWhile isBlank)
  hi := lineStart ls b.last + byteLength (trimEnd (ls.getD b.last []))
  replacement := ""

end LineBlock

theorem lt_length_of_ink {ls : List (List Char)} {n : Nat}
    (h : ∃ c ∈ ls.getD n [], isBlank c = false) :
  n < ls.length
  := by
  obtain ⟨c, hc, -⟩ := h
  by_contra hge
  rw [List.getD_eq_getElem?_getD, List.getElem?_eq_none (by omega)] at hc
  simp at hc

/-- A text is cut in front of a line with ink and behind it. -/
theorem lines_eq_of_ink {n : Nat} (h : ∃ c ∈ (lines text).getD n [], isBlank c = false) :
  lines text = (lines text).take n ++ (lines text).getD n [] :: (lines text).drop (n + 1)
  := by
  have hlt := lt_length_of_ink h
  rw [List.getD_eq_getElem?_getD, List.getElem?_eq_getElem hlt, Option.getD_some,
    ← List.drop_eq_getElem_cons hlt, List.take_append_drop]

theorem lineBefore_append (pre rest : List Char) :
  lineBefore (pre ++ rest) (byteLength pre) = lastLine pre
  := by
  rw [lineBefore, takeBytes_byteLength, lastLine]

theorem lineAfter_append {line rest : List Char} (hline : '\n' ∉ line)
    (hrest : rest = [] ∨ ∃ cs, rest = '\n' :: cs) (pre : List Char) :
  lineAfter (pre ++ (line ++ rest)) (byteLength pre) = line
  := by
  have hne : ∀ c ∈ line, (c != '\n') = true := by
    intro c hc
    rw [bne_iff_ne]
    rintro rfl
    exact hline hc
  rw [lineAfter, dropBytes_byteLength, List.takeWhile_append_of_pos hne]
  obtain rfl | ⟨cs, rfl⟩ := hrest
  · simp
  · simp

/-- In front of the first ink of a line are the blanks it starts with. -/
theorem lineBefore_of_ink {n : Nat} (h : ∃ c ∈ (lines text).getD n [], isBlank c = false) :
  let blanks := ((lines text).getD n []).takeWhile isBlank
  Boundary text (lineStart (lines text) n + byteLength blanks) ∧
    lineBefore text (lineStart (lines text) n + byteLength blanks) = blanks
  := by
  intro blanks
  have heq := lines_eq_of_ink h
  obtain ⟨c, hc, hblank⟩ := h
  have hline : blanks ++ ((lines text).getD n []).dropWhile isBlank = (lines text).getD n [] :=
    List.takeWhile_append_dropWhile
  cases hink : ((lines text).getD n []).dropWhile isBlank with
  | nil =>
      rw [List.dropWhile_eq_nil_iff] at hink
      simp [hink c hc] at hblank
  | cons d ink =>
      rw [← hline, hink] at heq
      have hlast := lastLine_flatten_front heq
      have hfeed := lineFeed_not_mem_of_lines heq
      have hpos : lineStart (lines text) n + byteLength blanks
          = byteLength (((lines text).take n).flatten ++ blanks) := by
        rw [byteLength_append, lineStart]
      have htext : text = ((lines text).take n).flatten ++ blanks
          ++ (d :: ink ++ ((lines text).drop (n + 1)).flatten) := by
        conv => lhs; rw [← flatten_lines text, heq]
        simp
      rw [hpos]
      generalize ((lines text).take n).flatten = pre at *
      constructor
      · exact ⟨_, pre ++ blanks, htext, rfl⟩
      · rw [htext, lineBefore_append, lastLine_append hfeed, hlast, List.nil_append]

theorem trimEnd_append_lineFeed (cs : List Char) :
  trimEnd (cs ++ ['\n']) = trimEnd cs
  := by
  have hfeed : isBlank '\n' = true := rfl
  rw [trimEnd, List.reverse_append, List.reverse_singleton, List.singleton_append,
    List.dropWhile_cons_of_pos hfeed, trimEnd]

/-- A line with ink is its body with the line feed behind it, if it has one, and what is left of the
text behind the body is empty or starts with that line feed. -/
theorem exists_body_of_ink {n : Nat} (h : ∃ c ∈ (lines text).getD n [], isBlank c = false) :
  ∃ body rest, '\n' ∉ body ∧ (rest = [] ∨ ∃ cs, rest = '\n' :: cs) ∧
    text = ((lines text).take n).flatten ++ body ++ rest ∧
    trimEnd ((lines text).getD n []) = trimEnd body ∧
    byteLength ((lines text).getD n []) = byteLength body + min 1 (byteLength rest) ∧
    (n + 1 < (lines text).length → 0 < byteLength rest)
  := by
  have heq := lines_eq_of_ink h
  obtain ⟨body, hbody, hline | ⟨hline, -, hback⟩⟩ := exists_of_lines heq
  · have hfeed : '\n'.utf8Size = 1 := rfl
    use body, '\n' :: ((lines text).drop (n + 1)).flatten
    refine ⟨hbody, .inr ⟨_, rfl⟩, ?_, ?_, ?_, ?_⟩
    · conv => lhs; rw [← flatten_lines text, heq, hline]
      simp
    · rw [hline, trimEnd_append_lineFeed]
    · rw [hline, byteLength_append, byteLength_cons, byteLength_cons, byteLength_nil]
      omega
    · rw [byteLength_cons]
      omega
  · use body, []
    refine ⟨hbody, .inl rfl, ?_, by rw [hline], by rw [hline]; simp, ?_⟩
    · conv => lhs; rw [← flatten_lines text, heq, hline, hback]
      simp
    · intro hlt
      rw [List.drop_eq_nil_iff] at hback
      omega

/-- Behind the last ink of a line are blanks, and the line feed if it has one. -/
theorem lineAfter_of_ink {n : Nat} (h : ∃ c ∈ (lines text).getD n [], isBlank c = false) :
  let stop := lineStart (lines text) n + byteLength (trimEnd ((lines text).getD n []))
  Boundary text stop ∧ (lineAfter text stop).all isBlank = true ∧
    min (stop + byteLength (lineAfter text stop) + 1) (byteLength text)
      = lineStart (lines text) (n + 1) ∧
    (n + 1 < (lines text).length → stop < lineStart (lines text) (n + 1))
  := by
  intro stop
  obtain ⟨body, rest, hbody, hrest, htext, htrim, hlength, hnext⟩ := exists_body_of_ink h
  obtain ⟨blanks, hsplit, hblanks⟩ := exists_trimEnd body
  have hfeed : '\n' ∉ blanks := by
    rw [hsplit] at hbody
    exact fun hmem => hbody (List.mem_append_right _ hmem)
  have hstop : stop = byteLength (((lines text).take n).flatten ++ trimEnd body) := by
    rw [byteLength_append, ← lineStart, ← htrim]
  have hstart : lineStart (lines text) (n + 1)
      = byteLength ((lines text).take n).flatten + (byteLength body + min 1 (byteLength rest)) := by
    rw [lineStart_succ, lineStart, hlength]
  have hsplit_length := congrArg byteLength hsplit
  have htext' : text = (((lines text).take n).flatten ++ trimEnd body) ++ (blanks ++ rest) := by
    conv => lhs; rw [htext, hsplit]
    simp
  have hend := congrArg byteLength htext'
  rw [hstop, hstart]
  generalize ((lines text).take n).flatten = pre at *
  have hafter : lineAfter text (byteLength (pre ++ trimEnd body)) = blanks := by
    rw [htext']
    apply lineAfter_append hfeed hrest
  simp only [byteLength_append] at *
  refine ⟨⟨_, pre ++ trimEnd body, htext', byteLength_append _ _⟩, ?_, ?_, ?_⟩
  · rw [hafter]
    simpa using hblanks
  · rw [hafter]
    omega
  · intro hlt
    have := hnext hlt
    omega

/-- A deletion from the first to the last ink of a block is widened to the lines of the block. -/
theorem widen_deletion {b : LineBlock} (h : b.Inked (lines text)) :
  (b.deletion (lines text)).widen text
    = ⟨lineStart (lines text) b.first, lineStart (lines text) (b.last + 1), ""⟩
  := by
  obtain ⟨-, hbefore⟩ := lineBefore_of_ink h.first
  obtain ⟨-, hafter, hstop, -⟩ := lineAfter_of_ink h.last
  have hblank : (((lines text).getD b.first []).takeWhile isBlank).all isBlank = true := by
    rw [List.all_eq_true]
    exact fun c hc => List.mem_takeWhile_imp hc
  have hdeletion : (b.deletion (lines text)).isDeletion = true := rfl
  rw [widen, if_pos hdeletion]
  simp only [LineBlock.deletion, hbefore, hblank, hafter, hstop, if_true, Nat.add_sub_cancel_right]

/-- The blanks a line starts with end before its last ink. -/
theorem byteLength_blanks_le {line : List Char} (h : ∃ c ∈ line, isBlank c = false) :
  byteLength (line.takeWhile isBlank) ≤ byteLength (trimEnd line)
  := by
  obtain ⟨c, hc, hblank⟩ := h
  obtain ⟨blanks, hsplit, hblanks⟩ := exists_trimEnd line
  have heq : line.takeWhile isBlank ++ line.dropWhile isBlank = trimEnd line ++ blanks := by
    rw [List.takeWhile_append_dropWhile]
    exact hsplit
  obtain ⟨ink, hink, -⟩ | ⟨mid, -, hmid⟩ := List.append_eq_append_iff.mp heq
  · rw [hink, byteLength_append]
    apply Nat.le_add_right
  · -- all of the line would be blank
    exfalso
    rw [← List.takeWhile_append_dropWhile (p := isBlank) (l := line)] at hc
    obtain hc | hc := List.mem_append.mp hc
    · simp [List.mem_takeWhile_imp hc] at hblank
    · have := hblanks c (by rw [hmid]; exact List.mem_append_right _ hc)
      simp [this] at hblank

theorem placed_deletion {b : LineBlock} (h : b.Inked (lines text)) :
  (b.deletion (lines text)).Placed text
  := by
  constructor
  · change lineStart _ _ + _ ≤ lineStart _ _ + _
    obtain hlt | heq := Nat.lt_or_eq_of_le h.le
    · have hstart := lineStart_mono (lines text) hlt
      have hsplit := congrArg byteLength
        (List.takeWhile_append_dropWhile (p := isBlank) (l := (lines text).getD b.first []))
      rw [byteLength_append] at hsplit
      rw [lineStart_succ] at hstart
      omega
    · rw [← heq]
      apply Nat.add_le_add_left (byteLength_blanks_le h.first)
  · exact (lineBefore_of_ink h.first).1
  · exact (lineAfter_of_ink h.last).1

/-- A line feed stands between the deletions of two blocks. -/
theorem deletion_lt {a b : LineBlock} (ha : a.Inked (lines text)) (hb : b.Inked (lines text))
    (h : a.last < b.first) :
  (a.deletion (lines text)).hi < (b.deletion (lines text)).lo
  := by
  have hlt := lt_length_of_ink hb.first
  have hstop := (lineAfter_of_ink ha.last).2.2.2 (by omega)
  have hstart := lineStart_mono (lines text) h
  change _ < lineStart _ _ + _
  exact Nat.lt_of_lt_of_le hstop (Nat.le_trans hstart (Nat.le_add_right _ _))

/-- The deletions of blocks, in the order of where they start, stay apart when they are widened. -/
theorem pairwise_sortBy_deletion {blocks : List LineBlock}
    (hblocks : ∀ b ∈ blocks, b.Inked (lines text)) (happart : blocks.Pairwise LineBlock.Apart) :
  (sortBy precedes (blocks.map (LineBlock.deletion (lines text)))).Pairwise fun a b =>
    a.hi < b.lo ∧ (a.widen text).hi ≤ (b.widen text).lo
  := by
  let R (a b : Edit) : Prop := a.hi < b.lo ∧ (a.widen text).hi ≤ (b.widen text).lo
  have hbefore {a b : LineBlock} (ha : a ∈ blocks) (hb : b ∈ blocks) (h : a.last < b.first) :
      R (a.deletion (lines text)) (b.deletion (lines text)) := by
    constructor
    · apply deletion_lt (hblocks a ha) (hblocks b hb) h
    · rw [widen_deletion (hblocks a ha), widen_deletion (hblocks b hb)]
      apply lineStart_mono _ h
  have hpairwise : (blocks.map (LineBlock.deletion (lines text))).Pairwise fun a b =>
      R a b ∨ R b a := by
    rw [List.pairwise_map]
    apply happart.imp_of_mem
    rintro a b ha hb (h | h)
    · exact .inl (hbefore ha hb h)
    · exact .inr (hbefore hb ha h)
  have hsorted := hpairwise.perm (perm_sortBy precedes _).symm Or.symm
  have hplaced : ∀ e ∈ sortBy precedes (blocks.map (LineBlock.deletion (lines text))),
      e.lo ≤ e.hi := by
    intro e he
    obtain ⟨b, hb, rfl⟩ := List.mem_map.mp (mem_sortBy_iff.mp he)
    apply (placed_deletion (hblocks b hb)).le
  apply ((pairwise_sortBy_precedes _).and hsorted).imp_of_mem
  rintro a b ha hb ⟨hle, h | h⟩
  · exact h
  · -- the second edit would start before the first
    have hlt := h.1
    have := hplaced b hb
    omega

/-- Deletions from the first to the last ink of blocks of lines, in whatever order, leave the lines
that are in none of the blocks as they are, and nothing of the others. -/
theorem toList_applyAll_blocks (text : String) {blocks : List LineBlock}
    (hblocks : ∀ b ∈ blocks, b.Inked (lines text.toList))
    (happart : blocks.Pairwise LineBlock.Apart) :
  (applyAll text (blocks.map (LineBlock.deletion (lines text.toList)))).toList
    = ((lines text.toList).zipIdx.filter fun line =>
        blocks.all fun b => !decide (b.Has line.2)).flatMap Prod.fst
  := by
  have hsorted := pairwise_sortBy_deletion hblocks happart
  have hmerge : merge (sortBy precedes (blocks.map (LineBlock.deletion (lines text.toList))))
      = sortBy precedes (blocks.map (LineBlock.deletion (lines text.toList))) := by
    apply merge_eq_self (hsorted.imp And.left)
  have hplaced : ∀ e ∈ blocks.map (LineBlock.deletion (lines text.toList)),
      e.Placed text.toList := by
    intro e he
    obtain ⟨b, hb, rfl⟩ := List.mem_map.mp he
    apply placed_deletion (hblocks b hb)
  have hdeletions : ∀ e ∈ blocks.map (LineBlock.deletion (lines text.toList)),
      e.replacement = "" := by
    intro e he
    obtain ⟨b, -, rfl⟩ := List.mem_map.mp he
    rfl
  have happart' := hsorted.imp And.right
  rw [← hmerge] at happart'
  have hflatten : located 0 text.toList = located 0 (lines text.toList).flatten := by
    rw [flatten_lines]
  rw [toList_applyAll_of_apart hplaced hdeletions happart', hmerge, hflatten]
  apply map_filter_located_flatten _ fun n => blocks.all fun b => !decide (b.Has n)
  intro i pos hle hlt
  rw [Nat.zero_add] at *
  -- a widened deletion takes out a byte of a line if its block has the line
  have hcovers (b : LineBlock) (hb : b ∈ blocks) :
      ((b.deletion (lines text.toList)).widen text.toList).Covers pos ↔ b.Has i := by
    rw [widen_deletion (hblocks b hb)]
    constructor
    · rintro ⟨hlo, hhi⟩
      constructor
      · by_contra h
        have hstart := lineStart_mono (lines text.toList) (show i + 1 ≤ b.first by omega)
        exact Nat.lt_irrefl _ (Nat.lt_of_lt_of_le hlt (Nat.le_trans hstart hlo))
      · by_contra h
        have hstart := lineStart_mono (lines text.toList) (show b.last + 1 ≤ i by omega)
        exact Nat.lt_irrefl _ (Nat.lt_of_lt_of_le hhi (Nat.le_trans hstart hle))
    · rintro ⟨hfirst, hlast⟩
      have hlo := lineStart_mono (lines text.toList) hfirst
      have hhi := lineStart_mono (lines text.toList) (Nat.succ_le_succ hlast)
      exact ⟨Nat.le_trans hlo hle, Nat.lt_of_lt_of_le hlt hhi⟩
  rw [Bool.eq_iff_iff, spares_iff]
  simp only [mem_sortBy_iff, List.forall_mem_map, List.all_eq_true, Bool.not_eq_true',
    decide_eq_false_iff_not]
  constructor
  · exact fun h b hb hhas => h b hb ((hcovers b hb).mpr hhas)
  · exact fun h b hb hpos => h b hb ((hcovers b hb).mp hpos)

/-- Two blocks, the first of them at the end of a text without a line feed there. -/
theorem toList_applyAll_blocks_two :
  let text := "  a\r\n\n\tb \n c\nd  "
  let blocks : List LineBlock := [⟨3, 4⟩, ⟨0, 0⟩]
  (∀ b ∈ blocks, b.Inked (lines text.toList)) ∧ blocks.Pairwise LineBlock.Apart ∧
    applyAll text (blocks.map (LineBlock.deletion (lines text.toList))) = "\n\tb \n"
  := by
  intro text blocks
  have hblocks : ∀ b ∈ blocks, b.Inked (lines text.toList) := by
    simp only [blocks, List.forall_mem_cons]
    refine ⟨⟨by decide, ⟨'c', ?_⟩, ⟨'d', ?_⟩⟩, ⟨by decide, ⟨'a', ?_⟩, ⟨'a', ?_⟩⟩, by simp⟩ <;>
      decide
  have happart : blocks.Pairwise LineBlock.Apart := by
    simp [blocks, LineBlock.Apart]
  refine ⟨hblocks, happart, ?_⟩
  have h := toList_applyAll_blocks text hblocks happart
  apply String.toList_injective
  rw [h]
  decide

end Edit

end Prune
