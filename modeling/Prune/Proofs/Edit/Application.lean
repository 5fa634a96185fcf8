import Mathlib.Data.List.Basic
import Mathlib.Data.List.Forall2
import Prune.Proofs.Edit.Pieces

/-!
# Carrying out edits

What carrying out edits does to a text, whatever edits they are, in whatever order and however they
overlap.  It takes no part of the text that begins or ends outside of the text or inside a character:
the checked form, which fails where one does, gives the same (`Edit.applyAll?_eq_some`).  All that
edits take out is cut out of the text, and besides nothing but blanks.

Sorted edits fall into groups of which the edits are carried out together (`Edit.Gathers`).  What
takes the place of all of them is what the first one puts there (`Edit.Supplies`); what another one
would put there is lost, but then an edit before it ends behind its start
(`Edit.applyAll_cuts`).
-/

namespace Prune

open Text

namespace Edit

variable {text : List Char} {e last : Edit} {es group : List Edit} {pos cursor : Nat}

/-! ### Checked application -/

/-- Widens a deletion; fails where a part of the text is taken that is none. -/
def widen? (text : List Char) (e : Edit) : Option Edit :=
  if e.isDeletion then do
    let front ← slice? 0 e.lo text
    let start := e.lo - byteLength (front.reverse.takeWhile (· != '\n'))
    let back ← slice? e.hi (byteLength text) text
    let stop := e.hi + byteLength (back.takeWhile (· != '\n'))
    let before ← slice? start e.lo text
    let after ← slice? e.hi stop text
    if after.all isBlank then
      if before.all isBlank then
        return { e with lo := start, hi := min (stop + 1) (byteLength text) }
      else return { e with lo := start + byteLength (trimEnd before) }
    else return e
  else return e

/-- Carries out edits that were merged, from a byte on; fails where a part of the text is taken that
is none. -/
def applyFrom? (text : List Char) (cursor : Nat) : List Edit → Option (List Char)
  | [] => slice? cursor (byteLength text) text
  | e :: es => do
    let w ← e.widen? text
    let kept ← slice? cursor (max w.lo cursor) text
    let rest ← applyFrom? text (max cursor w.hi) es
    return kept ++ w.replacement.toList ++ rest

/-- Carries out edits; fails where a part of the text is taken that is none. -/
def applyAll? (text : String) (edits : List Edit) : Option String :=
  (applyFrom? text.toList 0 (merge (sortBy precedes edits))).map String.ofList

theorem slice?_zero (h : Boundary text pos) :
  slice? 0 pos text = some (takeBytes pos text)
  := by
  obtain ⟨rest, pre, rfl, rfl⟩ := h
  rw [takeBytes_byteLength]
  apply slice?_of_stands (Stands.zero _) rfl
  rw [Nat.zero_add]

theorem slice?_byteLength (h : Boundary text pos) :
  slice? pos (byteLength text) text = some (dropBytes pos text)
  := by
  have hrest := h.stands_dropBytes
  apply slice?_of_stands hrest (List.append_nil _).symm
  rw [hrest.add_byteLength]

theorem slice?_lineBefore (h : Boundary text pos) :
  slice? (pos - byteLength (lineBefore text pos)) pos text = some (lineBefore text pos)
  := by
  have hrest := h.stands_dropBytes
  have hline := stands_lineBefore hrest
  apply slice?_of_stands hline rfl
  have := hrest.add_byteLength
  have := hline.add_byteLength
  rw [byteLength_append] at this
  omega

theorem slice?_lineAfter (h : Boundary text pos) :
  slice? pos (pos + byteLength (lineAfter text pos)) text = some (lineAfter text pos)
  := by
  have hrest := h.stands_dropBytes
  obtain ⟨tail, htail, -⟩ := exists_lineAfter hrest
  apply slice?_of_stands hrest htail rfl

/-- Widening an edit takes parts of the text just if it is no deletion, or starts and ends between
characters. -/
theorem widen?_eq (e : Edit) :
  e.widen? text = if !e.isDeletion || isBoundary text e.lo && isBoundary text e.hi then
      some (e.widen text) else none
  := by
  have hbefore : byteLength ((takeBytes e.lo text).reverse.takeWhile (· != '\n'))
      = byteLength (lineBefore text e.lo) := by
    rw [lineBefore, byteLength_reverse]
  have hafter : (dropBytes e.hi text).takeWhile (· != '\n') = lineAfter text e.hi := rfl
  rw [widen?, widen]
  simp only [Bool.or_eq_true, Bool.not_eq_true', Bool.and_eq_true, isBoundary_iff]
  by_cases hdeletion : e.isDeletion = true
  · rw [if_pos hdeletion, if_pos hdeletion]
    by_cases hlo : Boundary text e.lo
    · by_cases hhi : Boundary text e.hi
      · rw [if_pos (.inr ⟨hlo, hhi⟩)]
        simp only [slice?_zero hlo, slice?_byteLength hhi, Option.bind_eq_bind, Option.bind_some,
          hbefore, hafter, slice?_lineBefore hlo, slice?_lineAfter hhi]
        split
        · split
          · rfl
          · rfl
        · rfl
      · simp [hdeletion, hhi, slice?]
    · simp [hdeletion, hlo, slice?]
  · rw [if_neg hdeletion, if_neg hdeletion, if_pos (.inl (Bool.not_eq_true _ ▸ hdeletion))]
    rfl

theorem applyFrom?_eq (cursor : Nat) (es : List Edit) :
  applyFrom? text cursor es
    = if areSoundFrom text cursor es then some (applyFrom text cursor es) else none
  := by
  induction es generalizing cursor with
  | nil =>
      rw [applyFrom?, areSoundFrom, applyFrom]
      by_cases hcursor : Boundary text cursor
      · rw [if_pos (isBoundary_iff.mpr hcursor)]
        apply slice?_byteLength hcursor
      · rw [if_neg (mt isBoundary_iff.mp hcursor), slice?, if_neg fun h => hcursor h.2.1]
  | cons e es ih =>
      rw [applyFrom?, areSoundFrom, widen?_eq]
      by_cases hwiden : (!e.isDeletion || isBoundary text e.lo && isBoundary text e.hi) = true
      · simp only [hwiden, ↓reduceIte, Option.bind_eq_bind, Option.bind_some, Bool.true_and, ih]
        by_cases hcursor : Boundary text cursor
        · by_cases hlo : Boundary text (max (e.widen text).lo cursor)
          · rw [slice?_eq_some hcursor hlo (Nat.le_max_right _ _), isBoundary_iff.mpr hcursor,
              isBoundary_iff.mpr hlo, applyFrom]
            simp only [Option.bind_some, Bool.true_and]
            split
            · rfl
            · rfl
          · rw [slice?, if_neg fun h => hlo h.2.2, Bool.eq_false_iff.mpr (mt isBoundary_iff.mp hlo)]
            simp
        · rw [slice?, if_neg fun h => hcursor h.2.1,
            Bool.eq_false_iff.mpr (mt isBoundary_iff.mp hcursor)]
          simp
      · simp [hwiden]

/-- Edits can be carried out, and give what they give, just where the text can be cut as they cut
it. -/
theorem applyAll?_eq (text : String) (edits : List Edit) :
  applyAll? text edits = if areSound text edits then some (applyAll text edits) else none
  := by
  rw [applyAll?, applyFrom?_eq, areSound, applyAll]
  split
  · rfl
  · rfl

theorem areSoundFrom_of_placed (hcursor : Boundary text cursor) (hes : ∀ e ∈ es, e.Placed text) :
  areSoundFrom text cursor es = true
  := by
  induction es generalizing cursor with
  | nil => exact isBoundary_iff.mpr hcursor
  | cons e es ih =>
      obtain ⟨he, hes⟩ := List.forall_mem_cons.mp hes
      have hwide := (widened_widen he).placed
      simp only [areSoundFrom, Bool.and_eq_true, Bool.or_eq_true, isBoundary_iff]
      exact ⟨⟨⟨.inr ⟨he.lo, he.hi⟩, hcursor⟩, boundary_max hwide.lo hcursor⟩,
        ih (boundary_max hcursor hwide.hi) hes⟩

/-- A text can be cut by edits that start and end between characters. -/
theorem areSound_of_placed {text : String} {edits : List Edit}
    (hedits : ∀ e ∈ edits, e.Placed text.toList) :
  areSound text edits = true
  := areSoundFrom_of_placed (Stands.zero _).boundary (placed_merge hedits)

/-- Carrying out edits takes no part of the text that begins or ends outside of it or inside a
character. -/
theorem applyAll?_eq_some {text : String} {edits : List Edit}
    (hedits : ∀ e ∈ edits, e.Placed text.toList) :
  applyAll? text edits = some (applyAll text edits)
  := by
  rw [applyAll?_eq, if_pos (areSound_of_placed hedits)]

/-! ### Groups of edits -/

/-- Whether the edits of a group are joined to one: it puts in their place what the first of them
does and ends where one of them does, and each other one that puts something in its place starts
before the end of one in front of it. -/
structure Gathers (group : List Edit) (m : Edit) : Prop where
  replacement : group.head?.map Edit.replacement = some m.replacement
  last : ∃ e ∈ group, m.hi = e.hi
  lost : ∀ front x back, group = front ++ x :: back → front ≠ [] → x.replacement ≠ "" →
    ∃ e ∈ front, x.lo < e.hi

theorem gathers_singleton (e : Edit) :
  Gathers [e] e
  := by
  constructor
  · rfl
  · exact ⟨e, List.mem_singleton_self e, rfl⟩
  · intro front x back heq hfront _
    cases front with
    | nil => contradiction
    | cons first front => simp at heq

/-- An edit that is joined to those of a group and puts something in its place starts before the end
of one of them. -/
theorem Gathers.exists_lt (h : Gathers group last) (hjoins : last.joins e = true)
    (hne : e.replacement ≠ "") :
  ∃ e' ∈ group, e.lo < e'.hi
  := by
  obtain ⟨e', hmem, hlast⟩ := h.last
  use e', hmem
  rcases joins_iff.mp hjoins with hlt | ⟨-, hempty⟩
  · rw [← hlast]
    exact hlt
  · contradiction

theorem Gathers.join (h : Gathers group last) (hjoins : last.joins e = true) :
  Gathers (group ++ [e]) { last with hi := max last.hi e.hi }
  := by
  obtain ⟨e', hmem, hlast⟩ := h.last
  constructor
  · cases group with
    | nil => simp at hmem
    | cons first group => exact h.replacement
  · rcases Nat.le_total e.hi last.hi with hle | hle
    · use e', List.mem_append_left _ hmem
      rw [← hlast]
      apply Nat.max_eq_left hle
    · use e, List.mem_append_right _ (List.mem_singleton_self e)
      apply Nat.max_eq_right hle
  · intro front x back heq hfront hne
    rcases List.eq_nil_or_concat back with rfl | ⟨back, b, rfl⟩
    · -- the edit that is joined to the group
      obtain ⟨rfl, hx⟩ := List.append_inj' heq rfl
      obtain rfl := List.singleton_inj.mp hx
      apply h.exists_lt hjoins hne
    · rw [List.concat_eq_append, ← List.cons_append, ← List.append_assoc] at heq
      obtain ⟨rfl, -⟩ := List.append_inj' heq rfl
      apply h.lost front x back rfl hfront hne

/-- Edits fall into groups, one for each of those they merge to. -/
theorem exists_groups_mergeFrom (h : Gathers group last) :
  ∃ groups : List (List Edit), groups.flatten = group ++ es ∧
    List.Forall₂ Gathers groups (mergeFrom last es)
  := by
  induction es generalizing last group with
  | nil =>
      use [group]
      rw [mergeFrom]
      exact ⟨by simp, .cons h .nil⟩
  | cons e es ih =>
      rw [mergeFrom]
      split
      · next hjoins =>
        obtain ⟨groups, hflatten, hgroups⟩ := ih (h.join hjoins)
        use groups
        rw [hflatten, List.append_assoc]
        exact ⟨rfl, hgroups⟩
      · obtain ⟨groups, hflatten, hgroups⟩ := ih (gathers_singleton e)
        use group :: groups
        rw [List.flatten_cons, hflatten]
        exact ⟨rfl, .cons h hgroups⟩

theorem exists_groups_merge (es : List Edit) :
  ∃ groups : List (List Edit), groups.flatten = es ∧ List.Forall₂ Gathers groups (merge es)
  := by
  cases es with
  | nil => exact ⟨[], rfl, .nil⟩
  | cons e es => apply exists_groups_mergeFrom (gathers_singleton e)

/-! ### Cuts -/

/-- The pieces of a text that are cut out of it. -/
def cuts (qs : List Piece) : List Piece :=
  qs.filter fun q => q.replacement.isSome

/-- Whether a piece has a byte of the text. -/
def Piece.Has (q : Piece) (pos : Nat) : Prop :=
  q.lo ≤ pos ∧ pos < q.hi

/-- Whether the edits of a group give what takes the place of a piece: what the first of them puts
there.  What another one would put there is lost, but then one that is sorted in front of it ends
behind its start. -/
structure Supplies (group : List Edit) (q : Piece) : Prop where
  replacement : q.replacement = group.head?.map Edit.replacement
  lost : ∀ front x back, group = front ++ x :: back → front ≠ [] → x.replacement ≠ "" →
    ∃ e ∈ front, e.precedes x = true ∧ x.lo < e.hi

theorem Gathers.supplies {q : Piece} (h : Gathers group e)
    (hsorted : group.Pairwise fun a b => a.precedes b = true)
    (hq : q.replacement = some e.replacement) :
  Supplies group q
  := by
  constructor
  · rw [hq, h.replacement]
  · rintro front x back rfl hfront hne
    obtain ⟨e', hmem, hlt⟩ := h.lost front x back rfl hfront hne
    use e', hmem
    exact ⟨(List.pairwise_append.mp hsorted).2.2 e' hmem x List.mem_cons_self, hlt⟩

/-- Each group of edits gives what takes the place of one piece. -/
theorem supplies_cuts {groups : List (List Edit)} (h : List.Forall₂ Gathers groups es)
    (hsorted : ∀ group ∈ groups, group.Pairwise fun a b => a.precedes b = true) (cursor : Nat) :
  List.Forall₂ Supplies groups (cuts (piecesFrom text cursor es))
  := by
  induction h generalizing cursor with
  | nil => exact .nil
  | @cons group e groups es hgroup _ ih =>
      obtain ⟨hfirst, hrest⟩ := List.forall_mem_cons.mp hsorted
      apply List.Forall₂.cons
      · apply hgroup.supplies hfirst
        rw [replacement_widen]
      · apply ih hrest

/-! ### What is cut out -/

/-- Pieces that follow each other do not overlap. -/
theorem Tiles.pairwise {qs : List Piece} (h : Tiles text cursor qs) :
  qs.Pairwise fun a b => a.hi ≤ b.lo
  := by
  induction h with
  | nil => exact .nil
  | cons _ _ _ hqs ih =>
      constructor
      · intro q hq
        apply (hqs.le_of_mem hq).1
      · exact ih

theorem mem_cuts_iff {qs : List Piece} {q : Piece} :
  q ∈ cuts qs ↔ q ∈ qs ∧ ∃ r, q.replacement = some r
  := by
  rw [cuts, List.mem_filter, Option.isSome_iff_exists]

/-- Each byte of an edit is cut out. -/
theorem exists_cut_of_covers {text : String} {edits : List Edit}
    (hedits : ∀ e ∈ edits, e.Placed text.toList) (he : e ∈ edits) (hpos : e.Covers pos) :
  ∃ q ∈ cuts (pieces text edits), q.Has pos
  := by
  have hlt : pos < byteLength text.toList :=
    Nat.lt_of_lt_of_le hpos.2 (hedits e he).hi.le_byteLength
  obtain ⟨q, hq, hhas⟩ := (tiles_pieces hedits).exists_mem_of_lt (Nat.zero_le _) hlt
  have hcut : q.replacement ≠ none :=
    fun hkept => not_kept_of_mem hedits he hpos hq hkept hhas
  use q, mem_cuts_iff.mpr ⟨hq, Option.ne_none_iff_exists'.mp hcut⟩
  exact hhas

/-- A byte that is cut out is one of an edit or of a blank. -/
theorem covers_or_blank_of_cut {text : String} {edits : List Edit} {q : Piece}
    (hedits : ∀ e ∈ edits, e.Placed text.toList) (hq : q ∈ cuts (pieces text edits))
    (hhas : q.Has pos) :
  (∃ e ∈ edits, e.Covers pos) ∨ ∃ c, ByteOf text.toList pos c ∧ isBlank c = true
  := by
  obtain ⟨hq, r, hr⟩ := mem_cuts_iff.mp hq
  obtain ⟨hlo, hhi⟩ := hhas
  obtain ⟨-, -, hqlo, hqhi⟩ := (tiles_pieces hedits).le_of_mem hq
  obtain ⟨c, start, hc, hle, hlt⟩ :=
    exists_byteOf (Nat.lt_of_lt_of_le hhi hqhi.le_byteLength)
  cases hblank : isBlank c with
  | true =>
      right
      use c, ⟨start, hc, hle, hlt⟩
  | false =>
      left
      -- the piece has the whole character, and so has the edit that takes its first byte out
      have hfirst : q.lo ≤ start := by
        have := hc.le_or_le hqlo
        omega
      obtain ⟨e, he, hcovers⟩ :=
        exists_mem_of_replaced hedits hq hr hc hblank hfirst (by omega)
      use e, he
      have hend := hc.le_or_le (hedits e he).hi
      obtain ⟨hcovers, hcovers'⟩ := hcovers
      constructor
      · omega
      · omega

/-- Carrying out edits takes no part of the text that is none, and what it gives is the text with
pieces cut out of it that do not overlap.  The edits fall into groups, one for each piece that is cut
out; the first edit of a group gives what takes the place of the piece, and what another one would put
there is lost only to one that is sorted in front of it and ends behind its start.  Each byte of an
edit is cut out, and any other byte that is cut out is one of a blank. -/
theorem applyAll_cuts {text : String} {edits : List Edit}
    (hedits : ∀ e ∈ edits, e.Placed text.toList) :
  applyAll? text edits = some (applyAll text edits) ∧
    ∃ (qs : List Piece) (groups : List (List Edit)),
      Assembles text (applyAll text edits) qs ∧
      qs.Pairwise (fun a b => a.hi ≤ b.lo) ∧
      groups.flatten = sortBy precedes edits ∧
      List.Forall₂ Supplies groups (cuts qs) ∧
      (∀ q ∈ cuts qs, ∃ e ∈ edits, q.replacement = some e.replacement) ∧
      (∀ e ∈ edits, ∀ pos, e.Covers pos → ∃ q ∈ cuts qs, q.Has pos) ∧
      ∀ q ∈ cuts qs, ∀ pos, q.Has pos →
        (∃ e ∈ edits, e.Covers pos) ∨ ∃ c, ByteOf text.toList pos c ∧ isBlank c = true
  := by
  obtain ⟨groups, hflatten, hgathers⟩ := exists_groups_merge (sortBy precedes edits)
  have hsorted : ∀ group ∈ groups, group.Pairwise fun a b => a.precedes b = true := by
    have hpairwise := pairwise_precedes edits
    rw [← hflatten] at hpairwise
    apply (List.pairwise_flatten.mp hpairwise).1
  constructor
  · apply applyAll?_eq_some hedits
  use pieces text edits, groups
  refine ⟨assembles_applyAll hedits, (tiles_pieces hedits).pairwise, hflatten, ?_, ?_, ?_, ?_⟩
  · apply supplies_cuts hgathers hsorted
  · intro q hq
    obtain ⟨hq, r, hr⟩ := mem_cuts_iff.mp hq
    obtain ⟨e, he, heq⟩ := exists_replacement hedits hq hr
    use e, he
    rw [hr, heq]
  · intro e he pos hpos
    apply exists_cut_of_covers hedits he hpos
  · intro q hq pos hhas
    apply covers_or_blank_of_cut hedits hq hhas

/-- Of these edits, the one sorted second ends behind the start of the last, of which the replacement
is lost. -/
theorem applyAll_cuts_overlap :
  let edits : List Edit := [⟨4, 7, "null"⟩, ⟨2, 5, ""⟩, ⟨0, 1, "x"⟩]
  (∀ e ∈ edits, e.Placed "abc def\n".toList) ∧ applyAll? "abc def\n" edits = some "xb\n" ∧
    ∃ qs groups, Assembles "abc def\n" "xb\n" qs ∧ groups.flatten = sortBy precedes edits ∧
      List.Forall₂ Supplies groups (cuts qs)
  := by
  intro edits
  have hedits : ∀ e ∈ edits, e.Placed "abc def\n".toList := by decide
  have hcode : applyAll "abc def\n" edits = "xb\n" := by decide
  obtain ⟨happly, qs, groups, hassembles, -, hflatten, hsupplies, -⟩ := applyAll_cuts hedits
  rw [hcode] at happly hassembles
  exact ⟨hedits, happly, qs, groups, hassembles, hflatten, hsupplies⟩

end Edit

end Prune
