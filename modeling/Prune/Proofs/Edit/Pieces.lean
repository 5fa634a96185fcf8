import Mathlib.Data.List.Basic
import Mathlib.Data.List.TakeWhile
import Prune.Edit
import Prune.Proofs.Sorting
import Prune.Proofs.Text.Offsets

/-!
# The pieces of an edited text

Edits cut a text into pieces (`Edit.pieces`), of which some stay and the others are replaced.  The
pieces follow each other from the front of the text to its end (`Edit.tiles_pieces`), and the edited
text is what they give one after the other (`Edit.toList_applyAll`).

An edit and the pieces agree about what goes: no byte of an edit lies in a piece that stays
(`Edit.not_kept_of_mem`), and a piece that is replaced has no bytes but those of edits and blanks
(`Edit.exists_mem_of_replaced`).
-/

namespace Prune

open Text

namespace Edit

variable {text : List Char} {e last : Edit} {es : List Edit} {pos cursor : Nat}

/-- Whether an edit takes out a byte. -/
def Covers (e : Edit) (pos : Nat) : Prop :=
  e.lo ≤ pos ∧ pos < e.hi

/-- Whether an edit starts and ends between characters. -/
structure Placed (text : List Char) (e : Edit) : Prop where
  le : e.lo ≤ e.hi
  lo : Boundary text e.lo
  hi : Boundary text e.hi

theorem placed_iff :
  e.Placed text ↔ e.lo ≤ e.hi ∧ Boundary text e.lo ∧ Boundary text e.hi
  := by
  constructor
  · exact fun h => ⟨h.le, h.lo, h.hi⟩
  · rintro ⟨hle, hlo, hhi⟩
    exact ⟨hle, hlo, hhi⟩

instance : Decidable (e.Placed text) :=
  decidable_of_iff _ placed_iff.symm

theorem precedes_iff {a b : Edit} :
  a.precedes b = true ↔ a.lo < b.lo ∨ a.lo = b.lo ∧ b.hi ≤ a.hi
  := by
  simp only [precedes, Bool.or_eq_true, Bool.and_eq_true, decide_eq_true_eq, beq_iff_eq]

theorem precedes_trans {a b c : Edit} (hab : a.precedes b = true) (hbc : b.precedes c = true) :
  a.precedes c = true
  := by
  rw [precedes_iff] at *
  omega

theorem precedes_of_not_precedes {a b : Edit} (h : a.precedes b = false) :
  b.precedes a = true
  := by
  rw [Bool.eq_false_iff, ne_eq, precedes_iff] at h
  rw [precedes_iff]
  omega

theorem pairwise_precedes (edits : List Edit) :
  (sortBy precedes edits).Pairwise fun a b => a.precedes b = true
  := by
  apply pairwise_sortBy
  · apply precedes_trans
  · exact id
  · apply precedes_of_not_precedes

theorem pairwise_sortBy_precedes (edits : List Edit) :
  (sortBy precedes edits).Pairwise fun a b => a.lo ≤ b.lo
  := by
  apply (pairwise_precedes edits).imp
  intro a b h
  rw [precedes_iff] at h
  omega

/-! ### Merging -/

/-- What holds of edits holds of those they merge to if the join of two has it from them. -/
theorem forall_mergeFrom {P : Edit → Prop}
    (hjoin : ∀ a b : Edit, P a → P b → P { a with hi := max a.hi b.hi }) (hlast : P last)
    (hes : ∀ e ∈ es, P e) :
  ∀ m ∈ mergeFrom last es, P m
  := by
  induction es generalizing last with
  | nil => simpa [mergeFrom] using hlast
  | cons e es ih =>
      obtain ⟨he, hes⟩ := List.forall_mem_cons.mp hes
      rw [mergeFrom]
      split
      · exact ih (hjoin _ _ hlast he) hes
      · exact List.forall_mem_cons.mpr ⟨hlast, ih he hes⟩

theorem forall_merge {P : Edit → Prop}
    (hjoin : ∀ a b : Edit, P a → P b → P { a with hi := max a.hi b.hi }) (hes : ∀ e ∈ es, P e) :
  ∀ m ∈ merge es, P m
  := by
  cases es with
  | nil => simp [merge]
  | cons e es =>
      obtain ⟨he, hes⟩ := List.forall_mem_cons.mp hes
      exact forall_mergeFrom hjoin he hes

theorem placed_join {a b : Edit} (ha : a.Placed text) (hb : b.Placed text) :
  Placed text { a with hi := max a.hi b.hi }
  := by
  refine ⟨Nat.le_trans ha.le (Nat.le_max_left _ _), ha.lo, ?_⟩
  change Boundary text (max a.hi b.hi)
  obtain h | h := Nat.le_total a.hi b.hi
  · rw [Nat.max_eq_right h]
    exact hb.hi
  · rw [Nat.max_eq_left h]
    exact ha.hi

/-- Merged edits start in order, none before the first of the edits. -/
theorem pairwise_mergeFrom (hlast : ∀ e ∈ es, last.lo ≤ e.lo)
    (hes : es.Pairwise fun a b => a.lo ≤ b.lo) :
  (mergeFrom last es).Pairwise (fun a b => a.lo ≤ b.lo) ∧ ∀ m ∈ mergeFrom last es, last.lo ≤ m.lo
  := by
  induction es generalizing last with
  | nil => simp [mergeFrom]
  | cons e es ih =>
      obtain ⟨he, hes⟩ := List.pairwise_cons.mp hes
      obtain ⟨hle, hlast⟩ := List.forall_mem_cons.mp hlast
      rw [mergeFrom]
      split
      · exact ih hlast hes
      · obtain ⟨hpairwise, hfirst⟩ := ih he hes
        have hrest : ∀ m ∈ mergeFrom e es, last.lo ≤ m.lo :=
          fun m hm => Nat.le_trans hle (hfirst m hm)
        exact ⟨List.pairwise_cons.mpr ⟨hrest, hpairwise⟩,
          List.forall_mem_cons.mpr ⟨Nat.le_refl _, hrest⟩⟩

theorem pairwise_merge (hes : es.Pairwise fun a b => a.lo ≤ b.lo) :
  (merge es).Pairwise fun a b => a.lo ≤ b.lo
  := by
  cases es with
  | nil => exact .nil
  | cons e es =>
      obtain ⟨he, hes⟩ := List.pairwise_cons.mp hes
      exact (pairwise_mergeFrom he hes).1

/-- Each of some edits in order lies under one of those they merge to. -/
theorem exists_under_mergeFrom (hlast : ∀ e ∈ es, last.lo ≤ e.lo)
    (hes : es.Pairwise fun a b => a.lo ≤ b.lo) :
  ∀ e ∈ last :: es, ∃ m ∈ mergeFrom last es, m.lo ≤ e.lo ∧ e.hi ≤ m.hi
  := by
  induction es generalizing last with
  | nil => simp [mergeFrom]
  | cons first es ih =>
      obtain ⟨hfirst, hes⟩ := List.pairwise_cons.mp hes
      obtain ⟨hle, hlast⟩ := List.forall_mem_cons.mp hlast
      rw [mergeFrom]
      split
      · obtain ⟨⟨m, hm, hlo, hhi⟩, hrest⟩ := List.forall_mem_cons.mp
          (@ih { last with hi := max last.hi first.hi } hlast hes)
        simp only at hlo hhi
        exact List.forall_mem_cons.mpr ⟨⟨m, hm, hlo, by omega⟩,
          List.forall_mem_cons.mpr ⟨⟨m, hm, by omega, by omega⟩, hrest⟩⟩
      · refine List.forall_mem_cons.mpr
          ⟨⟨last, List.mem_cons_self, Nat.le_refl _, Nat.le_refl _⟩, fun e he => ?_⟩
        obtain ⟨m, hm, hunder⟩ := ih hfirst hes e he
        exact ⟨m, List.mem_cons_of_mem _ hm, hunder⟩

theorem exists_under_merge (hes : es.Pairwise fun a b => a.lo ≤ b.lo) :
  ∀ e ∈ es, ∃ m ∈ merge es, m.lo ≤ e.lo ∧ e.hi ≤ m.hi
  := by
  cases es with
  | nil => simp
  | cons e es =>
      obtain ⟨he, hes⟩ := List.pairwise_cons.mp hes
      exact exists_under_mergeFrom he hes

theorem joins_iff :
  last.joins e = true ↔
    e.lo < last.hi ∨ (e.lo = last.hi ∧ last.replacement = "") ∧ e.replacement = ""
  := by
  simp only [joins, isDeletion, Bool.or_eq_true, Bool.and_eq_true, decide_eq_true_eq, beq_iff_eq,
    String.isEmpty_iff]

/-- Joined edits take out the bytes of both and no others. -/
theorem covers_join_iff (hle : last.lo ≤ e.lo) (hjoins : last.joins e = true) :
  Covers { last with hi := max last.hi e.hi } pos ↔ last.Covers pos ∨ e.Covers pos
  := by
  have hlo : e.lo ≤ last.hi := by
    rw [joins_iff] at hjoins
    omega
  simp only [Covers]
  omega

theorem exists_covers_mergeFrom_iff (hlast : ∀ e ∈ es, last.lo ≤ e.lo)
    (hes : es.Pairwise fun a b => a.lo ≤ b.lo) :
  (∃ m ∈ mergeFrom last es, m.Covers pos) ↔ ∃ e ∈ last :: es, e.Covers pos
  := by
  induction es generalizing last with
  | nil => simp [mergeFrom]
  | cons e es ih =>
      obtain ⟨he, hes⟩ := List.pairwise_cons.mp hes
      obtain ⟨hle, hlast⟩ := List.forall_mem_cons.mp hlast
      rw [mergeFrom]
      split
      · next hjoins =>
        have hrest := @ih { last with hi := max last.hi e.hi } hlast hes
        rw [hrest]
        simp only [List.exists_mem_cons_iff, covers_join_iff hle hjoins, or_assoc]
      · simp only [List.exists_mem_cons_iff, ih he hes]

/-- Merging changes nothing about which bytes are taken out. -/
theorem exists_covers_merge_iff (hes : es.Pairwise fun a b => a.lo ≤ b.lo) :
  (∃ m ∈ merge es, m.Covers pos) ↔ ∃ e ∈ es, e.Covers pos
  := by
  cases es with
  | nil => simp [merge]
  | cons e es =>
      obtain ⟨he, hes⟩ := List.pairwise_cons.mp hes
      exact exists_covers_mergeFrom_iff he hes

/-! ### Widening -/

/-- Whether nothing but blanks stands between two offsets. -/
def BlankBetween (text : List Char) (lo hi : Nat) : Prop :=
  ∀ pos c, CharAt text pos c → lo ≤ pos → pos < hi → isBlank c = true

theorem BlankBetween.of_stands {mid rest : List Char} {lo hi : Nat}
    (h : Stands text (mid ++ rest) lo) (hhi : hi = lo + byteLength mid)
    (hblank : ∀ c ∈ mid, isBlank c = true) :
  BlankBetween text lo hi
  := by
  subst hhi
  exact fun pos c hc hlo hhi => hblank c (hc.mem h hlo hhi)

/-- The line before an offset ends there, and a piece of it without the blanks at its end has
blanks behind it. -/
theorem stands_lineBefore {rest : List Char} {pos : Nat} (h : Stands text rest pos) :
  Stands text (lineBefore text pos ++ rest) (pos - byteLength (lineBefore text pos))
  := by
  obtain ⟨pre, rfl, rfl⟩ := h
  rw [lineBefore, takeBytes_byteLength]
  use (pre.reverse.dropWhile (· != '\n')).reverse
  have hpre : pre = (pre.reverse.dropWhile (· != '\n')).reverse
      ++ (pre.reverse.takeWhile (· != '\n')).reverse := by
    rw [← List.reverse_append, List.takeWhile_append_dropWhile, List.reverse_reverse]
  constructor
  · rw [← List.append_assoc, ← hpre]
  · conv => rhs; rw [hpre]
    simp

theorem exists_trimEnd (cs : List Char) :
  ∃ blanks, cs = trimEnd cs ++ blanks ∧ ∀ c ∈ blanks, isBlank c = true
  := by
  use (cs.reverse.takeWhile isBlank).reverse
  constructor
  · rw [trimEnd, ← List.reverse_append, List.takeWhile_append_dropWhile, List.reverse_reverse]
  · intro c hc
    rw [List.mem_reverse] at hc
    exact List.mem_takeWhile_imp hc

/-- The line behind an offset is followed by a line feed or by nothing. -/
theorem exists_lineAfter {rest : List Char} {pos : Nat} (h : Stands text rest pos) :
  ∃ tail, rest = lineAfter text pos ++ tail ∧ (tail = [] ∨ ∃ cs, tail = '\n' :: cs)
  := by
  use rest.dropWhile (· != '\n')
  rw [lineAfter, h.dropBytes_eq, List.takeWhile_append_dropWhile]
  refine ⟨rfl, ?_⟩
  cases htail : rest.dropWhile (· != '\n') with
  | nil => exact .inl rfl
  | cons c cs =>
      have := List.head?_dropWhile_not (· != '\n') rest
      rw [htail] at this
      exact .inr ⟨cs, by simpa using this⟩

/-- What a deletion is widened by: blanks alone, and up to where characters meet. -/
structure Widened (text : List Char) (e w : Edit) : Prop where
  placed : w.Placed text
  lo_le : w.lo ≤ e.lo
  le_hi : e.hi ≤ w.hi
  before : BlankBetween text w.lo e.lo
  after : BlankBetween text e.hi w.hi

theorem Widened.refl (h : e.Placed text) :
  Widened text e e
  := by
  refine ⟨h, Nat.le_refl _, Nat.le_refl _, ?_, ?_⟩
  · intro pos c _ hlo hhi
    omega
  · intro pos c _ hlo hhi
    omega

/-- An edit without the line behind it, and with the line break if there is one. -/
theorem exists_lineEnd (h : Boundary text pos) (hblank : (lineAfter text pos).all isBlank = true) :
  let hi := min (pos + byteLength (lineAfter text pos) + 1) (byteLength text)
  pos ≤ hi ∧ Boundary text hi ∧ BlankBetween text pos hi
  := by
  intro hi
  obtain ⟨rest, hrest⟩ := h
  obtain ⟨tail, rfl, htail⟩ := exists_lineAfter hrest
  have hblank : ∀ c ∈ lineAfter text pos, isBlank c = true := by simpa using hblank
  have hlength := hrest.add_byteLength
  rw [byteLength_append] at hlength
  obtain rfl | ⟨cs, rfl⟩ := htail
  · have hhi : hi = pos + byteLength (lineAfter text pos) := by
      simp only [byteLength_nil] at hlength
      simp only [hi]
      omega
    refine ⟨by omega, ?_, .of_stands hrest hhi hblank⟩
    rw [hhi]
    exact hrest.append.boundary
  · have hhi : hi = pos + byteLength (lineAfter text pos ++ ['\n']) := by
      simp only [byteLength_cons] at hlength
      simp only [hi, byteLength_append, byteLength_cons, byteLength_nil]
      have : '\n'.utf8Size = 1 := rfl
      omega
    rw [show lineAfter text pos ++ '\n' :: cs = (lineAfter text pos ++ ['\n']) ++ cs by simp]
      at hrest
    refine ⟨by omega, ?_, .of_stands hrest hhi ?_⟩
    · rw [hhi]
      exact hrest.append.boundary
    · intro c hc
      obtain hc | hc := List.mem_append.mp hc
      · exact hblank c hc
      · rw [List.mem_singleton.mp hc]
        rfl

@[simp] theorem replacement_widen (text : List Char) (e : Edit) :
  (e.widen text).replacement = e.replacement
  := by
  rw [widen]
  split <;> [skip; rfl]
  dsimp only
  split <;> [skip; rfl]
  split <;> rfl

theorem widened_widen (h : e.Placed text) :
  Widened text e (e.widen text)
  := by
  obtain ⟨hle, hlo, hhi⟩ := h
  obtain ⟨rest, hrest⟩ := hlo
  have hbefore := stands_lineBefore hrest
  have hlo : byteLength (lineBefore text e.lo) ≤ e.lo := by
    have := hbefore.add_byteLength
    have := hrest.add_byteLength
    simp only [byteLength_append] at *
    omega
  rw [widen]
  split
  · -- a deletion
    dsimp only
    split
    · next hafter =>
      split
      · next hblank =>
        -- on lines of its own
        obtain ⟨hle', hboundary, hblank'⟩ := exists_lineEnd hhi hafter
        refine ⟨⟨?_, hbefore.boundary, hboundary⟩, Nat.sub_le _ _, hle', ?_, hblank'⟩
        · change e.lo - _ ≤ min _ _
          omega
        · exact .of_stands hbefore (by simp only; omega) (by simpa using hblank)
      · -- at the end of a line
        obtain ⟨blanks, hsplit, hblanks⟩ := exists_trimEnd (lineBefore text e.lo)
        have hlength : byteLength (lineBefore text e.lo)
            = byteLength (trimEnd (lineBefore text e.lo)) + byteLength blanks := by
          conv => lhs; rw [hsplit]
          simp
        have hstands : Stands text (blanks ++ rest) (e.lo - byteLength (lineBefore text e.lo)
            + byteLength (trimEnd (lineBefore text e.lo))) := by
          apply Stands.append
          rw [← List.append_assoc, ← hsplit]
          exact hbefore
        refine ⟨⟨?_, hstands.boundary, hhi⟩, ?_, Nat.le_refl _, ?_, ?_⟩
        · change e.lo - _ + _ ≤ e.hi
          omega
        · change e.lo - _ + _ ≤ e.lo
          omega
        · exact .of_stands hstands (by simp only; omega) hblanks
        · intro pos c _ hlo hhi
          exact absurd hlo (by simp only at hhi; omega)
    · exact .refl ⟨hle, hrest.boundary, hhi⟩
  · exact .refl ⟨hle, hrest.boundary, hhi⟩

/-! ### Pieces -/

/-- The bytes from `lo` on and before `hi`, and what takes their place; nothing does if they stay. -/
structure Piece where
  lo : Nat
  hi : Nat
  replacement : Option String

/-- What a piece gives. -/
def Piece.output (text : List Char) (q : Piece) : List Char :=
  match q.replacement with
  | none => slice q.lo q.hi text
  | some replacement => replacement.toList

/-- The pieces that merged edits cut a text into, from a byte on. -/
def piecesFrom (text : List Char) (cursor : Nat) : List Edit → List Piece
  | [] => [⟨cursor, byteLength text, none⟩]
  | e :: es =>
    let w := e.widen text
    ⟨cursor, max w.lo cursor, none⟩
      :: ⟨max w.lo cursor, max cursor w.hi, some w.replacement⟩
      :: piecesFrom text (max cursor w.hi) es

/-- The pieces that edits cut a text into. -/
def pieces (text : String) (edits : List Edit) : List Piece :=
  piecesFrom text.toList 0 (merge (sortBy precedes edits))

/-- Whether pieces follow each other from an offset to the end of a text, each of them between
characters. -/
inductive Tiles (text : List Char) : Nat → List Piece → Prop where
  | nil : Tiles text (byteLength text) []
  | cons {q : Piece} {qs : List Piece} (hle : q.lo ≤ q.hi) (hlo : Boundary text q.lo)
      (hhi : Boundary text q.hi) (hqs : Tiles text q.hi qs) : Tiles text q.lo (q :: qs)

/-- Whether a text is put together from the pieces of another, some of which are replaced. -/
structure Assembles (text : String) (code : String) (qs : List Piece) : Prop where
  tiles : Tiles text.toList 0 qs
  code : code.toList = qs.flatMap (Piece.output text.toList)

theorem takeBytes_of_le {cs : List Char} {n : Nat} (h : byteLength cs ≤ n) :
  takeBytes n cs = cs
  := by
  induction cs generalizing n with
  | nil => simp
  | cons c cs ih =>
      have := c.utf8Size_pos
      rw [byteLength_cons] at h
      rw [takeBytes, if_neg (by simp; omega), ih (by omega)]

theorem byteLength_dropBytes_le (n : Nat) (cs : List Char) :
  byteLength (dropBytes n cs) ≤ byteLength cs - n
  := by
  induction cs generalizing n with
  | nil => simp
  | cons c cs ih =>
      rw [dropBytes]
      split
      · simp_all
      · have := ih (n - c.utf8Size)
        rw [byteLength_cons]
        omega

theorem applyFrom_eq (text : List Char) (cursor : Nat) (es : List Edit) :
  applyFrom text cursor es = (piecesFrom text cursor es).flatMap (Piece.output text)
  := by
  induction es generalizing cursor with
  | nil =>
      simp only [applyFrom, piecesFrom, List.flatMap_cons, List.flatMap_nil, List.append_nil,
        Piece.output, slice]
      rw [takeBytes_of_le (byteLength_dropBytes_le cursor text)]
  | cons e es ih => simp [applyFrom, piecesFrom, ih, Piece.output]

/-- An edited text is what its pieces give. -/
theorem toList_applyAll (text : String) (edits : List Edit) :
  (applyAll text edits).toList = (pieces text edits).flatMap (Piece.output text.toList)
  := by
  rw [applyAll, String.toList_ofList, applyFrom_eq, pieces]

theorem boundary_max {a b : Nat} (ha : Boundary text a) (hb : Boundary text b) :
  Boundary text (max a b)
  := by
  obtain h | h := Nat.le_total a b
  · rwa [Nat.max_eq_right h]
  · rwa [Nat.max_eq_left h]

theorem tiles_piecesFrom (hcursor : Boundary text cursor) (hes : ∀ e ∈ es, e.Placed text) :
  Tiles text cursor (piecesFrom text cursor es)
  := by
  induction es generalizing cursor with
  | nil =>
      obtain ⟨rest, hrest⟩ := hcursor
      have := hrest.add_byteLength
      refine .cons (q := ⟨cursor, _, none⟩) (by simp only; omega) hrest.boundary ?_ .nil
      exact ⟨[], text, by simp⟩
  | cons e es ih =>
      obtain ⟨he, hes⟩ := List.forall_mem_cons.mp hes
      obtain ⟨⟨hle, hlo, hhi⟩, -⟩ := widened_widen he
      refine .cons (q := ⟨cursor, _, none⟩) (Nat.le_max_right _ _) hcursor
        (boundary_max hlo hcursor) ?_
      refine .cons (q := ⟨_, _, some _⟩) (by simp only; omega) (boundary_max hlo hcursor)
        (boundary_max hcursor hhi) ?_
      exact ih (boundary_max hcursor hhi) hes

theorem placed_merge (hes : ∀ e ∈ es, e.Placed text) :
  ∀ m ∈ merge (sortBy precedes es), m.Placed text
  := by
  apply forall_merge (P := Placed text) fun _ _ => placed_join
  exact fun e he => hes e (mem_sortBy_iff.mp he)

theorem tiles_pieces {text : String} {edits : List Edit}
    (hedits : ∀ e ∈ edits, e.Placed text.toList) :
  Tiles text.toList 0 (pieces text edits)
  := tiles_piecesFrom (Stands.zero _).boundary (placed_merge hedits)

/-- An edited text is put together from the pieces that the edits cut the text into. -/
theorem assembles_applyAll {text : String} {edits : List Edit}
    (hedits : ∀ e ∈ edits, e.Placed text.toList) :
  Assembles text (applyAll text edits) (pieces text edits)
  := ⟨tiles_pieces hedits, toList_applyAll text edits⟩

theorem Tiles.le_of_mem {qs : List Piece} {q : Piece} (h : Tiles text cursor qs) (hq : q ∈ qs) :
  cursor ≤ q.lo ∧ q.lo ≤ q.hi ∧ Boundary text q.lo ∧ Boundary text q.hi
  := by
  induction h with
  | nil => simp at hq
  | @cons first qs hle hlo hhi hqs ih =>
      obtain rfl | hq := List.mem_cons.mp hq
      · exact ⟨Nat.le_refl _, hle, hlo, hhi⟩
      · obtain ⟨hle', h⟩ := ih hq
        exact ⟨Nat.le_trans hle hle', h⟩

/-- Each byte of a text from an offset on lies in one of the pieces that follow each other from
there. -/
theorem Tiles.exists_mem_of_lt {qs : List Piece} (h : Tiles text cursor qs) (hle : cursor ≤ pos)
    (hlt : pos < byteLength text) :
  ∃ q ∈ qs, q.lo ≤ pos ∧ pos < q.hi
  := by
  induction h with
  | nil => omega
  | @cons q qs _ _ _ _ ih =>
      by_cases hhi : pos < q.hi
      · use q, List.mem_cons_self
      · obtain ⟨q', hq', h⟩ := ih (by omega)
        use q', List.mem_cons_of_mem _ hq'

/-- Pieces that follow each other hold the whole text. -/
theorem Tiles.flatMap_slice {qs : List Piece} (h : Tiles text pos qs) :
  qs.flatMap (fun q => slice q.lo q.hi text) = dropBytes pos text
  := by
  induction h with
  | nil =>
      have := byteLength_dropBytes_le (byteLength text) text
      have := length_le_byteLength (dropBytes (byteLength text) text)
      exact (List.length_eq_zero_iff.mp (by omega)).symm
  | @cons q qs hle hlo hhi hqs ih =>
      obtain ⟨mid, hmid, hhi'⟩ := hlo.stands_dropBytes.exists_between hhi.stands_dropBytes hle
      rw [List.flatMap_cons, ih, slice_of_stands hlo.stands_dropBytes hmid hhi', ← hmid]

/-! ### What goes -/

/-- A byte of a widened edit is one of the edit or of a blank. -/
theorem Widened.covers {w : Edit} {c : Char} (h : Widened text e w) (hc : CharAt text pos c)
    (hblank : isBlank c = false) (hpos : w.Covers pos) :
  e.Covers pos
  := by
  obtain ⟨hlo, hhi⟩ := hpos
  refine ⟨?_, ?_⟩
  · by_contra hlt
    have := h.before pos c hc hlo (by omega)
    simp_all
  · by_contra hlt
    have := h.after pos c hc (by omega) hhi
    simp_all

theorem mem_of_replaced_from {q : Piece} {r : String} (pos : Nat) (hes : ∀ e ∈ es, e.Placed text)
    (hq : q ∈ piecesFrom text cursor es) (hr : q.replacement = some r) :
  ∃ e ∈ es, e.replacement = r ∧
    ∀ c, CharAt text pos c → isBlank c = false → q.lo ≤ pos → pos < q.hi → e.Covers pos
  := by
  induction es generalizing cursor with
  | nil =>
      simp only [piecesFrom, List.mem_singleton] at hq
      simp [hq] at hr
  | cons e es ih =>
      obtain ⟨he, hes⟩ := List.forall_mem_cons.mp hes
      simp only [piecesFrom, List.mem_cons] at hq
      obtain rfl | rfl | hq := hq
      · simp at hr
      · refine ⟨e, List.mem_cons_self, ?_, ?_⟩
        · rw [← replacement_widen text e]
          apply Option.some.inj hr
        · intro c hc hblank hlo hhi
          apply (widened_widen he).covers hc hblank
          simp only [Covers] at *
          omega
      · obtain ⟨e', he', h⟩ := ih hes hq
        exact ⟨e', List.mem_cons_of_mem _ he', h⟩

/-- What takes the place of a piece is what an edit puts there. -/
theorem exists_replacement {text : String} {edits : List Edit} {q : Piece} {r : String}
    (hedits : ∀ e ∈ edits, e.Placed text.toList) (hq : q ∈ pieces text edits)
    (hr : q.replacement = some r) :
  ∃ e ∈ edits, e.replacement = r
  := by
  obtain ⟨m, hm, hreplacement, -⟩ := mem_of_replaced_from 0 (placed_merge hedits) hq hr
  have hmerge : ∀ m ∈ merge (sortBy precedes edits), ∃ e ∈ edits, e.replacement = m.replacement := by
    apply forall_merge (P := fun m => ∃ e ∈ edits, e.replacement = m.replacement)
    · exact fun _ _ ha _ => ha
    · exact fun e he => ⟨e, mem_sortBy_iff.mp he, rfl⟩
  obtain ⟨e, he, heq⟩ := hmerge m hm
  exact ⟨e, he, heq.trans hreplacement⟩

/-- A character of a piece that is replaced is a blank, or an edit takes it out. -/
theorem exists_mem_of_replaced {text : String} {edits : List Edit} {q : Piece} {r : String}
    {c : Char} (hedits : ∀ e ∈ edits, e.Placed text.toList) (hq : q ∈ pieces text edits)
    (hr : q.replacement = some r) (hc : CharAt text.toList pos c) (hblank : isBlank c = false)
    (hlo : q.lo ≤ pos) (hhi : pos < q.hi) :
  ∃ e ∈ edits, e.Covers pos
  := by
  obtain ⟨m, hm, -, hcovers⟩ := mem_of_replaced_from pos (placed_merge hedits) hq hr
  obtain ⟨e, he, hpos⟩ := (exists_covers_merge_iff (pairwise_sortBy_precedes edits)).mp
    ⟨m, hm, hcovers c hc hblank hlo hhi⟩
  exact ⟨e, mem_sortBy_iff.mp he, hpos⟩

theorem cursor_le_of_mem {q : Piece} (hq : q ∈ piecesFrom text cursor es) :
  cursor ≤ q.lo
  := by
  induction es generalizing cursor with
  | nil => simp_all [piecesFrom]
  | cons e es ih =>
      simp only [piecesFrom, List.mem_cons] at hq
      obtain rfl | rfl | hq := hq
      · exact Nat.le_refl _
      · exact Nat.le_max_right _ _
      · exact Nat.le_trans (Nat.le_max_left _ _) (ih hq)

/-- No byte before the end of a widened edit lies in a piece that stays, if those before the edit start
no later when they are widened. -/
theorem not_kept_from_widen {q : Piece} (hes : ∀ e ∈ es, e.Placed text) (he : e ∈ es)
    (hsorted : es.Pairwise fun a b => a.lo ≤ b.lo)
    (hlo : ∀ e' ∈ es, e'.lo ≤ e.lo → (e'.widen text).lo ≤ pos) (hhi : pos < (e.widen text).hi)
    (hq : q ∈ piecesFrom text cursor es) (hkept : q.replacement = none) :
  ¬(q.lo ≤ pos ∧ pos < q.hi)
  := by
  induction es generalizing cursor with
  | nil => simp at he
  | cons first es ih =>
      obtain ⟨-, hes⟩ := List.forall_mem_cons.mp hes
      obtain ⟨hle, hsorted⟩ := List.pairwise_cons.mp hsorted
      obtain ⟨hfirst, hlo⟩ := List.forall_mem_cons.mp hlo
      simp only [piecesFrom, List.mem_cons] at hq
      obtain rfl | rfl | hq := hq
      · -- the piece before the first edit
        have hstart : first.lo ≤ e.lo := by
          obtain rfl | he := List.mem_cons.mp he
          · exact Nat.le_refl _
          · exact hle e he
        have := hfirst hstart
        simp only
        omega
      · simp at hkept
      · obtain rfl | he := List.mem_cons.mp he
        · -- the pieces behind the first edit, all of which start behind its end
          have := cursor_le_of_mem hq
          omega
        · exact ih hes he hsorted hlo hq

theorem not_kept_from {q : Piece} (hes : ∀ e ∈ es, e.Placed text)
    (hsorted : es.Pairwise fun a b => a.lo ≤ b.lo) (he : e ∈ es) (hpos : e.Covers pos)
    (hq : q ∈ piecesFrom text cursor es) (hkept : q.replacement = none) :
  ¬(q.lo ≤ pos ∧ pos < q.hi)
  := by
  apply not_kept_from_widen hes he hsorted _ _ hq hkept
  · intro e' he' hle
    have := (widened_widen (hes e' he')).lo_le
    have := hpos.1
    omega
  · have := (widened_widen (hes e he)).le_hi
    have := hpos.2
    omega

/-- No byte that an edit takes out lies in a piece that stays. -/
theorem not_kept_of_mem {text : String} {edits : List Edit} {q : Piece}
    (hedits : ∀ e ∈ edits, e.Placed text.toList) (he : e ∈ edits) (hpos : e.Covers pos)
    (hq : q ∈ pieces text edits) (hkept : q.replacement = none) :
  ¬(q.lo ≤ pos ∧ pos < q.hi)
  := by
  have hsorted := pairwise_sortBy_precedes edits
  obtain ⟨m, hm, hpos⟩ := (exists_covers_merge_iff hsorted).mpr ⟨e, mem_sortBy_iff.mpr he, hpos⟩
  exact not_kept_from (placed_merge hedits) (pairwise_merge hsorted) hm hpos hq hkept

end Edit

end Prune
