import Prune.Proofs.Edit.Pieces

/-!
# What stands for a part of a text

What becomes of the part of a text between two offsets when edits are carried out (`Edit.standing`):
what is left of it, and what edits that start in it put in its place.  Blanks apart it can be told
character by character: the first of the edits that take out a character decides
(`Edit.outputAt`, `Edit.inked_standing`).  So it depends on no edits but those that take out a
character of the part.
-/

namespace Prune

namespace Text

/-! ### Characters with their offsets -/

/-- The characters of a text with the offsets at which they stand, the first at a given one. -/
def located (pos : Nat) : List Char → List (Nat × Char)
  | [] => []
  | c :: cs => (pos, c) :: located (pos + c.utf8Size) cs

/-- The characters of a text from one offset on and before another, with their offsets. -/
def locatedIn (text : List Char) (lo hi : Nat) : List (Nat × Char) :=
  (located 0 text).filter fun p => decide (lo ≤ p.1) && decide (p.1 < hi)

/-- A text without its blanks. -/
def inked (cs : List Char) : List Char :=
  cs.filter fun c => !isBlank c

variable {text cs mid rest : List Char} {pos lo hi : Nat} {p : Nat × Char}

attribute [local simp] located

theorem located_append (pos : Nat) (cs ds : List Char) :
  located pos (cs ++ ds) = located pos cs ++ located (pos + byteLength cs) ds
  := by
  induction cs generalizing pos with
  | nil => simp [located]
  | cons c cs ih => simp [located, ih, Nat.add_assoc]

theorem map_located (pos : Nat) (cs : List Char) :
  (located pos cs).map Prod.snd = cs
  := by
  induction cs generalizing pos with
  | nil => rfl
  | cons c cs ih => simp [located, ih]

theorem offset_of_mem_located (h : p ∈ located pos cs) :
  pos ≤ p.1 ∧ p.1 < pos + byteLength cs
  := by
  induction cs generalizing pos with
  | nil => simp [located] at h
  | cons c cs ih =>
      have := c.utf8Size_pos
      rw [byteLength_cons]
      obtain rfl | h := List.mem_cons.mp h
      · simp only
        omega
      · have := ih h
        omega

theorem charAt_of_mem_located (hcs : Stands text cs pos) (h : p ∈ located pos cs) :
  CharAt text p.1 p.2
  := by
  induction cs generalizing pos with
  | nil => simp [located] at h
  | cons c cs ih =>
      obtain rfl | h := List.mem_cons.mp h
      · exact ⟨cs, hcs⟩
      · exact ih hcs.cons h

theorem mem_locatedIn (h : p ∈ locatedIn text lo hi) :
  CharAt text p.1 p.2 ∧ lo ≤ p.1 ∧ p.1 < hi
  := by
  obtain ⟨hmem, hin⟩ := List.mem_filter.mp h
  exact ⟨charAt_of_mem_located (.zero text) hmem, by simpa using hin⟩

/-- What stands between two offsets stands between the first and one in between, or between this and
the second. -/
theorem locatedIn_append {mid : Nat} (hlo : lo ≤ mid) (hhi : mid ≤ hi) :
  locatedIn text lo hi = locatedIn text lo mid ++ locatedIn text mid hi
  := by
  have hsplit (pos : Nat) (cs : List Char) :
      (located pos cs).filter (fun p => decide (lo ≤ p.1) && decide (p.1 < hi))
        = (located pos cs).filter (fun p => decide (lo ≤ p.1) && decide (p.1 < mid))
          ++ (located pos cs).filter (fun p => decide (mid ≤ p.1) && decide (p.1 < hi)) := by
    induction cs generalizing pos with
    | nil => rfl
    | cons c cs ih =>
        rw [located]
        by_cases hpos : pos < mid
        · have hmid : ¬mid ≤ pos := by omega
          have hhi' : pos < hi := by omega
          by_cases hlo' : lo ≤ pos <;> simp [hlo', hpos, hmid, hhi', ih]
        · -- from here on nothing stands before the offset in between
          have hnone : ((pos, c) :: located (pos + c.utf8Size) cs).filter
              (fun p => decide (lo ≤ p.1) && decide (p.1 < mid)) = [] := by
            apply List.filter_eq_nil_iff.mpr
            intro p hp
            have := @offset_of_mem_located (c :: cs) pos p hp
            simp only [Bool.and_eq_true, decide_eq_true_eq]
            omega
          rw [hnone, List.nil_append]
          apply List.filter_congr
          intro p hp
          have := @offset_of_mem_located (c :: cs) pos p hp
          have hlo : lo ≤ p.1 := by omega
          have hmid : mid ≤ p.1 := by omega
          rw [decide_eq_true hlo, decide_eq_true hmid]
  exact hsplit 0 text

theorem locatedIn_of_stands (h : Stands text (mid ++ rest) lo) (hhi : hi = lo + byteLength mid) :
  locatedIn text lo hi = located lo mid
  := by
  obtain ⟨pre, rfl, rfl⟩ := h
  have hpre : (located 0 pre).filter
      (fun p => decide (byteLength pre ≤ p.1) && decide (p.1 < hi)) = [] := by
    apply List.filter_eq_nil_iff.mpr
    intro p hp
    have := offset_of_mem_located hp
    simp only [Bool.and_eq_true, decide_eq_true_eq]
    omega
  have hmid : (located (byteLength pre) mid).filter
      (fun p => decide (byteLength pre ≤ p.1) && decide (p.1 < hi)) = located (byteLength pre) mid := by
    apply List.filter_eq_self.mpr
    intro p hp
    have := offset_of_mem_located hp
    simp only [Bool.and_eq_true, decide_eq_true_eq]
    omega
  have hrest : (located (byteLength pre + byteLength mid) rest).filter
      (fun p => decide (byteLength pre ≤ p.1) && decide (p.1 < hi)) = [] := by
    apply List.filter_eq_nil_iff.mpr
    intro p hp
    have := offset_of_mem_located hp
    simp only [Bool.and_eq_true, decide_eq_true_eq]
    omega
  rw [locatedIn, located_append, located_append, List.filter_append, List.filter_append,
    Nat.zero_add, hpre, hmid, hrest, List.nil_append, List.append_nil]

theorem locatedIn_of_le (h : hi ≤ lo) :
  locatedIn text lo hi = []
  := by
  apply List.filter_eq_nil_iff.mpr
  intro p _
  simp only [Bool.and_eq_true, decide_eq_true_eq]
  omega

/-- The characters between two offsets are those of the part of the text between them. -/
theorem map_locatedIn (hlo : Boundary text lo) (hhi : Boundary text hi) :
  (locatedIn text lo hi).map Prod.snd = slice lo hi text
  := by
  obtain hlt | hle := Nat.lt_or_ge hi lo
  · rw [locatedIn_of_le (Nat.le_of_lt hlt), slice_of_le (Nat.le_of_lt hlt)]
    rfl
  · obtain ⟨mid, hmid, heq⟩ := hlo.stands_dropBytes.exists_between hhi.stands_dropBytes hle
    have hstands := hlo.stands_dropBytes
    rw [hmid] at hstands
    rw [locatedIn_of_stands hstands heq, map_located, slice_of_stands hstands rfl heq]

/-- What stands from an offset on stands before a second or from there on, within some limits. -/
theorem locatedIn_split {a b : Nat} (hle : a ≤ b) :
  locatedIn text (max a lo) hi
    = locatedIn text (max a lo) (min b hi) ++ locatedIn text (max b lo) hi
  := by
  obtain hlo | hlo := Nat.le_total b lo
  · rw [locatedIn_of_le (by omega : min b hi ≤ max a lo), List.nil_append, Nat.max_eq_right hlo,
      Nat.max_eq_right (Nat.le_trans hle hlo)]
  · obtain hhi | hhi := Nat.le_total b hi
    · rw [Nat.min_eq_left hhi, Nat.max_eq_left hlo]
      exact locatedIn_append (by omega) hhi
    · rw [Nat.min_eq_right hhi, locatedIn_of_le (by omega : hi ≤ max b lo), List.append_nil]

/-- A character and what stands behind it. -/
theorem locatedIn_of_charAt {c : Char} (hc : CharAt text lo c) (hlt : lo < hi) :
  locatedIn text lo hi = (lo, c) :: locatedIn text (lo + c.utf8Size) hi
  := by
  obtain ⟨rest, pre, rfl, rfl⟩ := hc
  have hsize := c.utf8Size_pos
  have hpre (lo : Nat) (hle : byteLength pre ≤ lo) :
      (located 0 pre).filter (fun p => decide (lo ≤ p.1) && decide (p.1 < hi)) = [] := by
    apply List.filter_eq_nil_iff.mpr
    intro p hp
    have := offset_of_mem_located hp
    simp only [Bool.and_eq_true, decide_eq_true_eq]
    omega
  have hrest : (located (byteLength pre + c.utf8Size) rest).filter
        (fun p => decide (byteLength pre ≤ p.1) && decide (p.1 < hi))
      = (located (byteLength pre + c.utf8Size) rest).filter
        (fun p => decide (byteLength pre + c.utf8Size ≤ p.1) && decide (p.1 < hi)) := by
    apply List.filter_congr
    intro p hp
    have hle := (offset_of_mem_located hp).1
    rw [decide_eq_true hle, decide_eq_true (Nat.le_of_add_right_le hle)]
  have hstart : ¬byteLength pre + c.utf8Size ≤ byteLength pre := by omega
  simp only [locatedIn, located_append, located, List.filter_append, Nat.zero_add, hpre _ (Nat.le_refl _),
    hpre _ (Nat.le_add_right _ c.utf8Size), List.filter_cons, hrest]
  simp [hlt, hstart]

theorem inked_append (cs ds : List Char) :
  inked (cs ++ ds) = inked cs ++ inked ds
  := List.filter_append ..

theorem boundary_min {a b : Nat} (ha : Boundary text a) (hb : Boundary text b) :
  Boundary text (min a b)
  := by
  obtain h | h := Nat.le_total a b
  · rwa [Nat.min_eq_left h]
  · rwa [Nat.min_eq_right h]

end Text

open Text

namespace Edit

instance (e : Edit) (pos : Nat) : Decidable (e.Covers pos) :=
  inferInstanceAs (Decidable (_ ∧ _))

/-! ### Parts of the edited text -/

/-- What a piece of a text gives for the part of the text between two offsets. What takes the place
of a piece stands where the piece starts. -/
def Piece.outputIn (text : List Char) (lo hi : Nat) (q : Piece) : List Char :=
  match q.replacement with
  | none => slice (max q.lo lo) (min q.hi hi) text
  | some r => if lo ≤ q.lo ∧ q.lo < hi then r.toList else []

theorem Piece.outputIn_of_kept {text : List Char} {lo hi : Nat} {q : Piece}
    (h : q.replacement = none) :
  q.outputIn text lo hi = slice (max q.lo lo) (min q.hi hi) text
  := by
  rw [outputIn, h]

theorem Piece.outputIn_of_replaced {text : List Char} {lo hi : Nat} {q : Piece} {r : String}
    (h : q.replacement = some r) :
  q.outputIn text lo hi = if lo ≤ q.lo ∧ q.lo < hi then r.toList else []
  := by
  rw [outputIn, h]

/-- What stands for the part of a text between two offsets when edits are carried out. -/
def standing (text : List Char) (edits : List Edit) (lo hi : Nat) : List Char :=
  (piecesFrom text 0 (merge (sortBy precedes edits))).flatMap (Piece.outputIn text lo hi)

/-- What edits, of which the first count more, make of a character. -/
def outputOf (es : List Edit) (p : Nat × Char) : List Char :=
  match es.find? fun e => decide (e.Covers p.1) with
  | none => [p.2]
  | some e => if e.lo = p.1 then e.replacement.toList else []

/-- What edits make of a character. -/
def outputAt (edits : List Edit) (p : Nat × Char) : List Char :=
  outputOf (sortBy precedes edits) p

variable {text : List Char} {e last : Edit} {es : List Edit} {p : Nat × Char} {lo hi cursor : Nat}

theorem outputOf_cons_of_covers (h : e.Covers p.1) :
  outputOf (e :: es) p = if e.lo = p.1 then e.replacement.toList else []
  := by
  simp [outputOf, h]

theorem outputOf_cons_of_not_covers (h : ¬e.Covers p.1) :
  outputOf (e :: es) p = outputOf es p
  := by
  simp [outputOf, h]

theorem outputOf_eq_self (h : ∀ e ∈ es, ¬e.Covers p.1) :
  outputOf es p = [p.2]
  := by
  have hnone : es.find? (fun e => decide (e.Covers p.1)) = none := by simpa using h
  rw [outputOf, hnone]

/-- Deletions leave nothing of what they take out. -/
theorem outputOf_eq_nil (hcovers : e.Covers p.1) (he : e ∈ es)
    (hes : ∀ e ∈ es, e.Covers p.1 → e.lo = p.1 → e.replacement = "") :
  outputOf es p = []
  := by
  rw [outputOf]
  split
  · next hnone =>
    simp only [List.find?_eq_none, decide_eq_true_eq] at hnone
    exact absurd hcovers (hnone e he)
  · next first hfirst =>
    have hcovers' := List.find?_some hfirst
    have hmem := List.mem_of_find?_eq_some hfirst
    split
    · next hlo => simp [hes first hmem (of_decide_eq_true hcovers') hlo]
    · rfl

/-- Joining an edit with the one behind it changes nothing about what becomes of a character. -/
theorem outputOf_join (hle : last.lo ≤ e.lo) (hjoins : last.joins e = true) (es : List Edit) :
  outputOf ({ last with hi := max last.hi e.hi } :: es) p = outputOf (last :: e :: es) p
  := by
  have hcovers := @covers_join_iff e last p.1 hle hjoins
  by_cases hlast : last.Covers p.1
  · rw [outputOf_cons_of_covers (hcovers.mpr (.inl hlast)), outputOf_cons_of_covers hlast]
  · rw [outputOf_cons_of_not_covers hlast]
    by_cases he : e.Covers p.1
    · rw [outputOf_cons_of_covers (hcovers.mpr (.inr he)), outputOf_cons_of_covers he]
      -- where the second starts behind the end of the first, both are deletions
      rw [joins_iff] at hjoins
      simp only [Covers] at hlast he
      obtain hlt | ⟨⟨-, hlast'⟩, he'⟩ := hjoins
      · rw [if_neg (by simp only; omega), if_neg (by omega)]
      · simp [hlast', he']
    · have hnot : ¬Covers { last with hi := max last.hi e.hi } p.1 := by
        rw [hcovers]
        exact not_or.mpr ⟨hlast, he⟩
      rw [outputOf_cons_of_not_covers hnot, outputOf_cons_of_not_covers he]

theorem outputOf_mergeFrom (hlast : ∀ e ∈ es, last.lo ≤ e.lo)
    (hes : es.Pairwise fun a b => a.lo ≤ b.lo) :
  outputOf (mergeFrom last es) p = outputOf (last :: es) p
  := by
  induction es generalizing last with
  | nil => rfl
  | cons e es ih =>
      obtain ⟨he, hes⟩ := List.pairwise_cons.mp hes
      obtain ⟨hle, hlast⟩ := List.forall_mem_cons.mp hlast
      rw [mergeFrom]
      split
      · next hjoins =>
        have hrest := @ih { last with hi := max last.hi e.hi } hlast hes
        rw [hrest, outputOf_join hle hjoins]
      · by_cases hcovers : last.Covers p.1
        · rw [outputOf_cons_of_covers hcovers, outputOf_cons_of_covers hcovers]
        · rw [outputOf_cons_of_not_covers hcovers, outputOf_cons_of_not_covers hcovers, ih he hes]

/-- Merging changes nothing about what becomes of a character. -/
theorem outputOf_merge (hes : es.Pairwise fun a b => a.lo ≤ b.lo) :
  outputOf (merge es) p = outputOf es p
  := by
  cases es with
  | nil => rfl
  | cons e es =>
      obtain ⟨he, hes⟩ := List.pairwise_cons.mp hes
      exact outputOf_mergeFrom he hes

/-- What becomes of a character depends on the edits that take it out alone. -/
theorem outputAt_congr {edits edits' : List Edit}
    (h : edits.filter (fun e => decide (e.Covers p.1))
      = edits'.filter (fun e => decide (e.Covers p.1))) :
  outputAt edits p = outputAt edits' p
  := by
  have hsort (edits : List Edit) :
      (sortBy precedes edits).find? (fun e => decide (e.Covers p.1))
        = (sortBy precedes (edits.filter fun e => decide (e.Covers p.1))).head? := by
    rw [← List.head?_filter, filter_sortBy]
    · apply precedes_trans
    · apply precedes_of_not_precedes
  rw [outputAt, outputAt, outputOf, outputOf, hsort, hsort, h]

/-- The first edit that takes out a character decides, wherever it stands. -/
theorem outputAt_of_filter {edits : List Edit}
    (h : edits.filter (fun e => decide (e.Covers p.1)) = [e]) :
  outputAt edits p = if e.lo = p.1 then e.replacement.toList else []
  := by
  have hmem : e ∈ edits.filter fun e => decide (e.Covers p.1) := by simp [h]
  have hcovers : e.Covers p.1 := of_decide_eq_true (List.mem_filter.mp hmem).2
  have hsingle : [e].filter (fun e => decide (e.Covers p.1)) = [e] := by simp [hcovers]
  rw [outputAt_congr (h.trans hsingle.symm)]
  exact outputOf_cons_of_covers hcovers

/-- Nothing stands for a character that is not the first of what an edit takes out. -/
theorem outputAt_eq_nil_of_lt {edits : List Edit} (he : e ∈ edits) (hcovers : e.Covers p.1)
    (hlt : e.lo < p.1) :
  outputAt edits p = []
  := by
  have hfirst : ∃ first, (sortBy precedes edits).find? (fun e => decide (e.Covers p.1)) = some first ∧
      first.lo ≤ e.lo := by
    have hsome : ((sortBy precedes edits).find? fun e => decide (e.Covers p.1)).isSome = true :=
      List.find?_isSome.mpr ⟨e, mem_sortBy_iff.mpr he, decide_eq_true hcovers⟩
    obtain ⟨first, hfirst⟩ := Option.isSome_iff_exists.mp hsome
    obtain ⟨-, front, back, heq, hfront⟩ := List.find?_eq_some_iff_append.mp hfirst
    have hmem : e ∈ front ++ first :: back := heq ▸ mem_sortBy_iff.mpr he
    have hsorted := heq ▸ pairwise_sortBy_precedes edits
    refine ⟨first, hfirst, ?_⟩
    obtain hmem | hmem := List.mem_append.mp hmem
    · simpa [hcovers] using hfront e hmem
    · obtain rfl | hmem := List.mem_cons.mp hmem
      · exact Nat.le_refl _
      · exact (List.pairwise_cons.mp (List.pairwise_append.mp hsorted).2.1).1 e hmem
  obtain ⟨first, hfirst, hle⟩ := hfirst
  rw [outputAt, outputOf, hfirst]
  exact if_neg (by omega)

/-- Nothing stands for a character that is deleted if no edit that starts there puts something in
its place. -/
theorem outputAt_eq_nil {edits : List Edit} (he : e ∈ edits) (hcovers : e.Covers p.1)
    (hedits : ∀ e ∈ edits, e.Covers p.1 → e.lo = p.1 → e.replacement = "") :
  outputAt edits p = []
  := outputOf_eq_nil hcovers (mem_sortBy_iff.mpr he)
      fun e he => hedits e (mem_sortBy_iff.mp he)

/-- What takes the place of a part of a text, if one edit alone takes out its first character. -/
theorem flatMap_outputAt_of_filter {edits : List Edit} {c : Char} (hc : CharAt text lo c)
    (hlt : lo < hi) (hlo : e.lo = lo) (hhi : hi ≤ e.hi)
    (hfirst : edits.filter (fun e => decide (e.Covers lo)) = [e]) :
  (locatedIn text lo hi).flatMap (outputAt edits) = e.replacement.toList
  := by
  have he : e ∈ edits.filter fun e => decide (e.Covers lo) := by simp [hfirst]
  have hrest : (locatedIn text (lo + c.utf8Size) hi).flatMap (outputAt edits) = [] := by
    apply List.flatMap_eq_nil_iff.mpr
    intro p hp
    have := c.utf8Size_pos
    obtain ⟨-, hle, hp⟩ := mem_locatedIn hp
    exact outputAt_eq_nil_of_lt (List.mem_filter.mp he).1 ⟨by omega, by omega⟩ (by omega)
  rw [locatedIn_of_charAt hc hlt, List.flatMap_cons, hrest, List.append_nil,
    outputAt_of_filter hfirst, if_pos hlo]

/-- Nothing stands for a part of a text that goes if no edit that starts in it puts something in its
place. -/
theorem flatMap_outputAt_eq_nil {edits : List Edit} (he : e ∈ edits)
    (hcovers : ∀ pos, lo ≤ pos → pos < hi → e.Covers pos)
    (hedits : ∀ e ∈ edits, e.Covers e.lo → lo ≤ e.lo → e.lo < hi → e.replacement = "") :
  (locatedIn text lo hi).flatMap (outputAt edits) = []
  := by
  apply List.flatMap_eq_nil_iff.mpr
  intro p hp
  obtain ⟨-, hle, hlt⟩ := mem_locatedIn hp
  refine outputAt_eq_nil he (hcovers _ hle hlt) fun e' he' hcovers' hstart => ?_
  rw [← hstart] at hcovers' hle hlt
  exact hedits e' he' hcovers' hle hlt

/-! ### Pieces -/

/-- Merged edits do not overlap. -/
theorem pairwise_disjoint_mergeFrom (es : List Edit) (hlast : last.lo ≤ last.hi)
    (hes : ∀ e ∈ es, e.lo ≤ e.hi) (hsorted : (last :: es).Pairwise fun a b => a.lo ≤ b.lo) :
  (mergeFrom last es).Pairwise (fun a b => a.hi ≤ b.lo) ∧
    ∀ m ∈ mergeFrom last es, last.lo ≤ m.lo
  := by
  induction es generalizing last with
  | nil => simp [mergeFrom]
  | cons e es ih =>
      obtain ⟨hle, hsorted⟩ := List.pairwise_cons.mp hsorted
      obtain ⟨hlast_e, hlast_es⟩ := List.forall_mem_cons.mp hle
      obtain ⟨he, hes⟩ := List.forall_mem_cons.mp hes
      rw [mergeFrom]
      split
      · have hlast' : last.lo ≤ max last.hi e.hi := Nat.le_trans hlast (Nat.le_max_left _ _)
        exact @ih { last with hi := max last.hi e.hi } hlast' hes
          (List.pairwise_cons.mpr ⟨hlast_es, (List.pairwise_cons.mp hsorted).2⟩)
      · next hjoins =>
        obtain ⟨hpairwise, hfirst⟩ := ih he hes hsorted
        have hend : last.hi ≤ e.lo := by
          rw [joins_iff, not_or] at hjoins
          omega
        refine ⟨List.pairwise_cons.mpr ⟨fun m hm => ?_, hpairwise⟩, ?_⟩
        · exact Nat.le_trans hend (hfirst m hm)
        · refine List.forall_mem_cons.mpr ⟨Nat.le_refl _, fun m hm => ?_⟩
          exact Nat.le_trans hlast_e (hfirst m hm)

theorem pairwise_disjoint_merge (hes : ∀ e ∈ es, e.lo ≤ e.hi)
    (hsorted : es.Pairwise fun a b => a.lo ≤ b.lo) :
  (merge es).Pairwise fun a b => a.hi ≤ b.lo
  := by
  cases es with
  | nil => exact .nil
  | cons e es =>
      obtain ⟨he, hes⟩ := List.forall_mem_cons.mp hes
      exact (pairwise_disjoint_mergeFrom es he hes hsorted).1

/-- Whether an edit that puts something in the place of what it takes out takes out some character,
the first of which is no blank. -/
def Inked (text : List Char) (e : Edit) : Prop :=
  e.replacement ≠ "" → e.lo < e.hi ∧ ∃ c, CharAt text e.lo c ∧ isBlank c = false

theorem widen_eq_self (h : e.replacement ≠ "") :
  e.widen text = e
  := by
  rw [widen, if_neg]
  simpa [isDeletion] using h

theorem inked_eq_nil {cs : List Char} (h : ∀ c ∈ cs, isBlank c = true) :
  inked cs = []
  := by
  apply List.filter_eq_nil_iff.mpr
  simpa using h

/-- What no edit takes out stays. -/
theorem flatMap_outputOf_eq_slice (hlo : Boundary text lo) (hhi : Boundary text hi)
    (hes : ∀ e ∈ es, hi ≤ e.lo) :
  (locatedIn text lo hi).flatMap (outputOf es) = slice lo hi text
  := by
  have hself : ∀ p ∈ locatedIn text lo hi, outputOf es p = [p.2] := by
    intro p hp
    obtain ⟨-, -, hlt⟩ := mem_locatedIn hp
    refine outputOf_eq_self fun e he hcovers => ?_
    have := hes e he
    exact absurd hcovers.1 (by omega)
  rw [List.flatMap_congr hself, ← map_locatedIn hlo hhi, List.map_eq_flatMap]

/-- What an edit puts in the place of what it takes out stands for the first character of it. -/
theorem flatMap_outputOf_cons {hi : Nat} (hlo : e.lo ≤ lo) (hhi : hi ≤ e.hi)
    (hc : ∃ c, CharAt text e.lo c) :
  (locatedIn text lo hi).flatMap (outputOf (e :: es))
    = if e.lo = lo ∧ lo < hi then e.replacement.toList else []
  := by
  have hnone {lo : Nat} (hlt : e.lo < lo) :
      (locatedIn text lo hi).flatMap (outputOf (e :: es)) = [] := by
    apply List.flatMap_eq_nil_iff.mpr
    intro p hp
    obtain ⟨-, hle, hp⟩ := mem_locatedIn hp
    rw [outputOf_cons_of_covers ⟨by omega, by omega⟩, if_neg (by omega)]
  split
  · next h =>
    obtain ⟨rfl, hlt⟩ := h
    obtain ⟨c, hc⟩ := hc
    have := c.utf8Size_pos
    rw [locatedIn_of_charAt hc hlt, List.flatMap_cons, hnone (by omega), List.append_nil,
      outputOf_cons_of_covers ⟨Nat.le_refl _, by simp only; omega⟩, if_pos rfl]
  · next h =>
    obtain hlt | hle := Nat.lt_or_ge lo hi
    · exact hnone (by omega)
    · rw [locatedIn_of_le hle]
      rfl

/-- The characters that an edit takes out when it is widened: what it puts in their place stands for
the first of them, and of the others nothing but blanks is left. -/
theorem inked_widened (he : e.Placed text) (hinked : ∀ e' ∈ e :: es, e'.Inked text)
    (hbehind : e.replacement ≠ "" → cursor ≤ e.lo) :
  inked ((locatedIn text (max (max (e.widen text).lo cursor) lo)
      (min (max cursor (e.widen text).hi) hi)).flatMap (outputOf (e :: es)))
    = inked (Piece.outputIn text lo hi ⟨max (e.widen text).lo cursor,
        max cursor (e.widen text).hi, some e.replacement⟩)
  := by
  obtain ⟨hinked_e, hinked⟩ := List.forall_mem_cons.mp hinked
  by_cases hr : e.replacement = ""
  · -- nothing takes the place of what goes
    have hnil : Piece.outputIn text lo hi ⟨max (e.widen text).lo cursor,
        max cursor (e.widen text).hi, some e.replacement⟩ = [] := by
      simp [Piece.outputIn, hr]
    rw [hnil]
    apply inked_eq_nil
    intro c hc
    obtain ⟨p, hp, hc⟩ := List.mem_flatMap.mp hc
    obtain ⟨hchar, hle, hlt⟩ := mem_locatedIn hp
    by_cases hcovers : e.Covers p.1
    · simp [outputOf_cons_of_covers hcovers, hr] at hc
    · -- a blank that the edit was widened by
      have hblank : isBlank p.2 = true := by
        by_contra hblank
        refine hcovers ((widened_widen he).covers hchar (by simpa using hblank) ?_)
        simp only [Covers]
        omega
      rw [outputOf_cons_of_not_covers hcovers] at hc
      unfold outputOf at hc
      split at hc
      · rwa [List.mem_singleton.mp hc]
      · next e' he' =>
        split at hc
        · next hstart =>
          by_cases hr' : e'.replacement = ""
          · simp [hr'] at hc
          · obtain ⟨-, d, hd, hd'⟩ := hinked e' (List.mem_of_find?_eq_some he') hr'
            rw [hstart] at hd
            simp [hd.unique hchar, hblank] at hd'
        · simp at hc
  · obtain ⟨hlt, c, hc, -⟩ := hinked_e hr
    have hbehind := hbehind hr
    rw [widen_eq_self hr, Nat.max_eq_left hbehind, Nat.max_eq_right (by omega : cursor ≤ e.hi),
      flatMap_outputOf_cons (by omega) (by omega) ⟨c, hc⟩, Piece.outputIn]
    congr 2
    simp only [eq_iff_iff]
    omega

/-- What stands for a part of a text is, blanks apart, what becomes of its characters: for the pieces
that edits which do not overlap cut a text into, from an offset on. -/
theorem inked_piecesFrom (hlo : Boundary text lo) (hhi : Boundary text hi)
    (hcursor : Boundary text cursor) (hes : ∀ e ∈ es, e.Placed text)
    (hsorted : es.Pairwise fun a b => a.hi ≤ b.lo)
    (hinked : ∀ e ∈ es, e.Inked text) (hbehind : ∀ e ∈ es, e.replacement ≠ "" → cursor ≤ e.lo) :
  inked ((piecesFrom text cursor es).flatMap (Piece.outputIn text lo hi))
    = inked ((locatedIn text (max cursor lo) hi).flatMap (outputOf es))
  := by
  induction es generalizing cursor with
  | nil =>
      have hend := hhi.le_byteLength
      rw [flatMap_outputOf_eq_slice (boundary_max hcursor hlo) hhi (by simp)]
      simp [piecesFrom, Piece.outputIn, Nat.min_eq_right hend]
  | cons e es ih =>
      obtain ⟨he, hes⟩ := List.forall_mem_cons.mp hes
      obtain ⟨hsorted_e, hsorted⟩ := List.pairwise_cons.mp hsorted
      obtain ⟨hbehind_e, hbehind⟩ := List.forall_mem_cons.mp hbehind
      have hwide := widened_widen he
      obtain ⟨hle, hlo_w, hhi_w⟩ := hwide.placed
      have hlo_le := hwide.lo_le
      -- no edit that puts something in its place starts with a blank
      have hbehind : ∀ e' ∈ es, e'.replacement ≠ "" → max cursor (e.widen text).hi ≤ e'.lo := by
        intro e' he' hr
        obtain ⟨-, c, hc, hblank⟩ := hinked e' (List.mem_cons_of_mem _ he') hr
        have := hbehind e' he' hr
        by_contra hlt
        have := hwide.after e'.lo c hc (hsorted_e e' he') (by omega)
        simp [hblank] at this
      have hrest := ih (boundary_max hcursor hhi_w) hes hsorted
        (fun e' he' => hinked e' (List.mem_cons_of_mem _ he')) hbehind
      have hbefore : (locatedIn text (max cursor lo) (min (max (e.widen text).lo cursor) hi)).flatMap
          (outputOf (e :: es)) = slice (max cursor lo) (min (max (e.widen text).lo cursor) hi) text := by
        have hlo' := boundary_max hcursor hlo
        have hhi' := boundary_min (boundary_max hlo_w hcursor) hhi
        obtain hlt | hge := Nat.lt_or_ge cursor (e.widen text).lo
        · refine flatMap_outputOf_eq_slice hlo' hhi' ?_
          refine List.forall_mem_cons.mpr ⟨by omega, fun e' he' => ?_⟩
          have := hsorted_e e' he'
          have := he.le
          omega
        · rw [← map_locatedIn hlo' hhi', locatedIn_of_le (by omega)]
          rfl
      have hbehind_rest : (locatedIn text (max (max cursor (e.widen text).hi) lo) hi).flatMap
          (outputOf (e :: es)) = (locatedIn text (max (max cursor (e.widen text).hi) lo) hi).flatMap
            (outputOf es) := by
        apply List.flatMap_congr
        intro p hp
        obtain ⟨-, hle, -⟩ := mem_locatedIn hp
        have := hwide.le_hi
        apply outputOf_cons_of_not_covers
        simp only [Covers]
        omega
      rw [piecesFrom, List.flatMap_cons, List.flatMap_cons, inked_append, inked_append, hrest,
        locatedIn_split (Nat.le_max_right (e.widen text).lo cursor),
        List.flatMap_append, inked_append, hbefore,
        locatedIn_split (a := max (e.widen text).lo cursor) (b := max cursor (e.widen text).hi)
          (by omega), List.flatMap_append, inked_append, hbehind_rest,
        inked_widened he hinked hbehind_e, replacement_widen]
      rfl

/-- What stands for a part of a text is, blanks apart, what becomes of its characters. -/
theorem inked_standing {edits : List Edit} (hlo : Boundary text lo) (hhi : Boundary text hi)
    (hedits : ∀ e ∈ edits, e.Placed text) (hinked : ∀ e ∈ edits, e.Inked text) :
  inked (standing text edits lo hi) = inked ((locatedIn text lo hi).flatMap (outputAt edits))
  := by
  have hsorted := pairwise_sortBy_precedes edits
  have hle : ∀ e ∈ sortBy precedes edits, e.lo ≤ e.hi :=
    fun e he => (hedits e (mem_sortBy_iff.mp he)).le
  have hmerge : ∀ m ∈ merge (sortBy precedes edits), m.Inked text := by
    apply forall_merge
    · intro a b ha _ hr
      obtain ⟨hlt, hc⟩ := ha hr
      exact ⟨Nat.lt_of_lt_of_le hlt (Nat.le_max_left _ _), hc⟩
    · exact fun e he => hinked e (mem_sortBy_iff.mp he)
  rw [standing, inked_piecesFrom hlo hhi (Stands.zero _).boundary (placed_merge hedits)
    (pairwise_disjoint_merge hle hsorted) hmerge fun _ _ _ => Nat.zero_le _, Nat.zero_max]
  congr 1
  exact List.flatMap_congr fun p _ => outputOf_merge hsorted

/-! ### The whole text -/

theorem slice_eq_append {mid : Nat} (hlo : Boundary text lo) (hmid : Boundary text mid)
    (hhi : Boundary text hi) (hle : lo ≤ mid) (hle' : mid ≤ hi) :
  slice lo hi text = slice lo mid text ++ slice mid hi text
  := by
  rw [← map_locatedIn hlo hhi, locatedIn_append hle hle', List.map_append, map_locatedIn hlo hmid,
    map_locatedIn hmid hhi]

/-- A piece that starts at an offset or behind it gives nothing for what stands before the offset. -/
theorem outputIn_of_le_lo {q : Piece} {mid : Nat} (hq : mid ≤ q.lo) (hle : lo ≤ mid) :
  q.outputIn text lo mid = [] ∧ q.outputIn text lo hi = q.outputIn text mid hi
  := by
  cases hr : q.replacement with
  | none =>
      simp only [Piece.outputIn_of_kept hr, Nat.max_eq_left hq, Nat.max_eq_left (Nat.le_trans hle hq),
        and_true]
      exact slice_of_le (by omega)
  | some r =>
      simp only [Piece.outputIn_of_replaced hr, hq, Nat.le_trans hle hq, true_and, and_true]
      exact if_neg (by omega)

/-- A piece that starts before an offset and does not end behind it gives nothing for what stands
from the offset on. -/
theorem outputIn_of_hi_le {q : Piece} {mid : Nat} (hlo : q.lo < mid) (hhi : q.hi ≤ mid)
    (hle : mid ≤ hi) :
  q.outputIn text mid hi = [] ∧ q.outputIn text lo hi = q.outputIn text lo mid
  := by
  cases hr : q.replacement with
  | none =>
      simp only [Piece.outputIn_of_kept hr, Nat.min_eq_left hhi, Nat.min_eq_left (Nat.le_trans hhi hle),
        and_true]
      exact slice_of_le (by omega)
  | some r =>
      simp only [Piece.outputIn_of_replaced hr, hlo, Nat.lt_of_lt_of_le hlo hle, and_true]
      exact if_neg (by omega)

/-- What stands for two parts of a text that follow each other. -/
theorem flatMap_outputIn_append {qs : List Piece} {mid : Nat} (hqs : Tiles text cursor qs)
    (hlo : Boundary text lo) (hmid : Boundary text mid)
    (hhi : ∀ pos, Boundary text pos → Boundary text (min pos hi)) (hle : lo ≤ mid)
    (hle' : mid ≤ hi) :
  qs.flatMap (Piece.outputIn text lo hi)
    = qs.flatMap (Piece.outputIn text lo mid) ++ qs.flatMap (Piece.outputIn text mid hi)
  := by
  have hbehind {qs : List Piece} (hqs : ∀ q ∈ qs, mid ≤ q.lo) :
      qs.flatMap (Piece.outputIn text lo mid) = [] ∧
        qs.flatMap (Piece.outputIn text lo hi) = qs.flatMap (Piece.outputIn text mid hi) :=
    ⟨List.flatMap_eq_nil_iff.mpr fun q hq => (@outputIn_of_le_lo text lo hi q mid (hqs q hq) hle).1,
      List.flatMap_congr fun q hq => (outputIn_of_le_lo (hqs q hq) hle).2⟩
  induction hqs with
  | nil => rfl
  | @cons q qs hq hlo_q hhi_q hqs ih =>
      by_cases hstart : mid ≤ q.lo
      · have hall : ∀ q' ∈ q :: qs, mid ≤ q'.lo := fun q' hq' =>
          Nat.le_trans hstart ((Tiles.cons hq hlo_q hhi_q hqs).le_of_mem hq').1
        obtain ⟨hnil, heq⟩ := hbehind hall
        rw [hnil, heq, List.nil_append]
      · rw [List.flatMap_cons, List.flatMap_cons, List.flatMap_cons]
        by_cases hend : q.hi ≤ mid
        · obtain ⟨hnil, heq⟩ := @outputIn_of_hi_le text lo hi q mid (by omega) hend hle'
          rw [ih, hnil, heq, List.nil_append, List.append_assoc]
        · -- the offset lies in the piece, and the others stand behind it
          have hall : ∀ q' ∈ qs, mid ≤ q'.lo := fun q' hq' =>
            Nat.le_trans (Nat.le_of_not_le hend) (hqs.le_of_mem hq').1
          obtain ⟨hnil, heq⟩ := hbehind hall
          rw [hnil, heq, List.append_nil, ← List.append_assoc]
          congr 1
          cases hr : q.replacement with
          | none =>
              simp only [Piece.outputIn_of_kept hr]
              rw [Nat.min_eq_right (by omega : mid ≤ q.hi), Nat.max_eq_right (by omega : q.lo ≤ mid)]
              exact slice_eq_append (boundary_max hlo_q hlo) hmid (hhi _ hhi_q) (by omega) (by omega)
          | some r =>
              simp only [Piece.outputIn_of_replaced hr, hstart, false_and, if_false, List.append_nil]
              congr 1
              simp only [eq_iff_iff]
              omega

/-- An edited text is what stands for what is before a part of the text, for the part and for what is
behind it. -/
theorem toList_applyAll_eq_standing {text : String} {edits : List Edit}
    (hedits : ∀ e ∈ edits, e.Placed text.toList) (hlo : Boundary text.toList lo)
    (hhi : Boundary text.toList hi) (hle : lo ≤ hi) :
  (applyAll text edits).toList = standing text.toList edits 0 lo
    ++ standing text.toList edits lo hi
    ++ standing text.toList edits hi (byteLength text.toList + 1)
  := by
  have htiles := tiles_pieces hedits
  have hzero := (Stands.zero text.toList).boundary
  have hend (pos : Nat) (hpos : Boundary text.toList pos) :
      Boundary text.toList (min pos (byteLength text.toList + 1)) := by
    rwa [Nat.min_eq_left (Nat.le_succ_of_le hpos.le_byteLength)]
  have hwhole : (applyAll text edits).toList
      = (pieces text edits).flatMap (Piece.outputIn text.toList 0 (byteLength text.toList + 1)) := by
    rw [toList_applyAll]
    apply List.flatMap_congr
    intro q hq
    obtain ⟨-, hle, -, hhi⟩ := htiles.le_of_mem hq
    have hle_end := hhi.le_byteLength
    cases hr : q.replacement with
    | none =>
        rw [Piece.output, hr, Piece.outputIn_of_kept hr, Nat.max_eq_left (Nat.zero_le _),
          Nat.min_eq_left (Nat.le_succ_of_le hle_end)]
    | some r =>
        rw [Piece.output, hr, Piece.outputIn_of_replaced hr, if_pos ⟨Nat.zero_le _, by omega⟩]
  have hle_end := hhi.le_byteLength
  rw [hwhole, flatMap_outputIn_append htiles hzero hhi hend (Nat.zero_le _) (by omega),
    flatMap_outputIn_append htiles hzero hlo (fun _ h => boundary_min h hhi) (Nat.zero_le _) hle]
  rfl

/-! ### Parts that come out the same -/

/-- What becomes of the characters between two offsets is the same in two ways, blanks apart, if it
is for those of some spans that stand apart, and for each character outside of them. -/
theorem inked_flatMap_congr {f g : Nat × Char → List Char} {spans : List (Nat × Nat)}
    (hapart : spans.Pairwise fun s t => s.2 ≤ t.1 ∨ t.2 ≤ s.1)
    (hin : ∀ s ∈ spans, lo ≤ s.1 ∧ s.1 ≤ s.2 ∧ s.2 ≤ hi)
    (hspans : ∀ s ∈ spans, inked ((locatedIn text s.1 s.2).flatMap f)
      = inked ((locatedIn text s.1 s.2).flatMap g))
    (hout : ∀ p ∈ locatedIn text lo hi, (∀ s ∈ spans, ¬(s.1 ≤ p.1 ∧ p.1 < s.2)) → f p = g p) :
  inked ((locatedIn text lo hi).flatMap f) = inked ((locatedIn text lo hi).flatMap g)
  := by
  induction spans generalizing g with
  | nil => exact congrArg inked (List.flatMap_congr fun p hp => hout p hp (by simp))
  | cons s spans ih =>
      obtain ⟨hapart_s, hapart⟩ := List.pairwise_cons.mp hapart
      obtain ⟨⟨hlo, hle, hhi⟩, hin⟩ := List.forall_mem_cons.mp hin
      obtain ⟨hsame, hspans⟩ := List.forall_mem_cons.mp hspans
      -- the second way but for the first span, where it is the first way
      let mixed (p : Nat × Char) : List Char := if s.1 ≤ p.1 ∧ p.1 < s.2 then f p else g p
      have hmixed_in : (locatedIn text s.1 s.2).flatMap mixed
          = (locatedIn text s.1 s.2).flatMap f := by
        apply List.flatMap_congr
        intro p hp
        exact if_pos (mem_locatedIn hp).2
      have hmixed_out {a b : Nat} (hab : b ≤ s.1 ∨ s.2 ≤ a) :
          (locatedIn text a b).flatMap mixed = (locatedIn text a b).flatMap g := by
        apply List.flatMap_congr
        intro p hp
        obtain ⟨-, hle, hlt⟩ := mem_locatedIn hp
        exact if_neg (by omega)
      have hmixed : inked ((locatedIn text lo hi).flatMap mixed)
          = inked ((locatedIn text lo hi).flatMap g) := by
        have hsplit : locatedIn text lo hi
            = locatedIn text lo s.1 ++ locatedIn text s.1 s.2 ++ locatedIn text s.2 hi := by
          rw [locatedIn_append (Nat.le_trans hlo hle) hhi, locatedIn_append hlo hle]
        rw [hsplit]
        simp only [List.flatMap_append, inked_append]
        rw [hmixed_in, hmixed_out (.inl (Nat.le_refl _)), hmixed_out (.inr (Nat.le_refl _)), hsame]
      rw [← hmixed]
      refine ih hapart hin (fun t ht => ?_) fun p hp hnot => ?_
      · rw [hspans t ht, hmixed_out (by have := hapart_s t ht; omega)]
      · by_cases hp' : s.1 ≤ p.1 ∧ p.1 < s.2
        · exact (if_pos hp').symm
        · rw [hout p hp (List.forall_mem_cons.mpr ⟨hp', hnot⟩)]
          exact (if_neg hp').symm

end Edit

end Prune
