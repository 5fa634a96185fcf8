import Prune.Proofs.Edit.Standing

/-!
# Parts that no edit touches

Edits that take out something each (`Edit.Proper`) leave nothing of a part of a text that deletions
take out (`Edit.standing_of_covered`), and of a part that none of them takes a byte of they leave all
but blanks at its two ends (`Edit.standing_of_untouched`): those behind a deletion up to a line feed
and with it, and those before a deletion on the same line.
-/

namespace Prune

open Text

namespace Edit

variable {text : List Char} {e m : Edit} {es edits : List Edit} {q : Piece} {r : String}
  {lo mid hi pos cursor : Nat} {c : Char}

/-! ### Before a widened deletion -/

/-- A deletion is not widened beyond the start of its first line. -/
theorem lineStart_le_widen (text : List Char) (e : Edit) :
  e.lo - byteLength (lineBefore text e.lo) ≤ (e.widen text).lo
  := by
  rw [widen]
  split
  · dsimp only
    split
    · split
      · apply Nat.le_refl
      · apply Nat.le_add_right
    · apply Nat.sub_le
  · apply Nat.sub_le

/-- What a deletion is widened by in front of it holds no line feed. -/
theorem ne_lineFeed_of_widen (h : Boundary text e.lo) (hc : CharAt text pos c)
    (hlo : (e.widen text).lo ≤ pos) (hlt : pos < e.lo) :
  c ≠ '\n'
  := by
  obtain ⟨rest, hrest⟩ := h
  have hline := stands_lineBefore hrest
  have hstart := lineStart_le_widen text e
  have hend : e.lo - byteLength (lineBefore text e.lo) + byteLength (lineBefore text e.lo)
      = e.lo := by
    have := hline.add_byteLength
    have := hrest.add_byteLength
    rw [byteLength_append] at *
    omega
  have hmem : c ∈ lineBefore text e.lo := hc.mem hline (by omega) (by omega)
  rw [lineBefore, List.mem_reverse] at hmem
  simpa using List.mem_takeWhile_imp hmem

/-- A deletion is not widened beyond the start of an edit behind it that puts something in the place
of ink. -/
theorem widen_le_of_inked {e' : Edit} (he : e.Placed text) (hle : e.hi ≤ e'.lo)
    (hinked : e'.Inked text) (hr : e'.replacement ≠ "") :
  (e.widen text).hi ≤ e'.lo
  := by
  obtain ⟨-, c, hc, hblank⟩ := hinked hr
  by_contra hlt
  have := (widened_widen he).after e'.lo c hc hle (by omega)
  simp [hblank] at this

/-! ### Edits that take out something -/

/-- Whether an edit starts and ends between characters and takes out some, the first of them no blank
if something takes its place. -/
structure Proper (text : List Char) (e : Edit) : Prop where
  placed : e.Placed text
  lt : e.lo < e.hi
  inked : e.Inked text

theorem proper_merge (hedits : ∀ e ∈ edits, e.Proper text) :
  ∀ m ∈ merge (sortBy precedes edits), m.Proper text
  := by
  apply forall_merge
  · intro a b ha hb
    have hlt : a.lo < max a.hi b.hi := Nat.lt_of_lt_of_le ha.lt (Nat.le_max_left _ _)
    exact ⟨placed_join ha.placed hb.placed, hlt, fun hr => ⟨hlt, (ha.inked hr).2⟩⟩
  · exact fun e he => hedits e (mem_sortBy_iff.mp he)

theorem disjoint_merge (hedits : ∀ e ∈ edits, e.Proper text) :
  (merge (sortBy precedes edits)).Pairwise fun a b => a.hi ≤ b.lo
  := by
  apply pairwise_disjoint_merge
  · exact fun e he => (hedits e (mem_sortBy_iff.mp he)).placed.le
  · apply pairwise_sortBy_precedes

/-- A merged edit leaves alone what all edits leave alone. -/
theorem apart_merge (hedits : ∀ e ∈ edits, e.Proper text)
    (hnot : ∀ e ∈ edits, ∀ pos, lo ≤ pos → pos < hi → ¬e.Covers pos) (hlt : lo < hi) :
  ∀ m ∈ merge (sortBy precedes edits), m.hi ≤ lo ∨ hi ≤ m.lo
  := by
  intro m hm
  have hm_lt := (proper_merge hedits m hm).lt
  by_contra h
  have hcovers : m.Covers (max m.lo lo) := by
    simp only [Covers]
    omega
  obtain ⟨e, he, he_covers⟩ :=
    (exists_covers_merge_iff (pairwise_sortBy_precedes edits)).mp ⟨m, hm, hcovers⟩
  exact hnot e (mem_sortBy_iff.mp he) _ (by omega) (by omega) he_covers

/-! ### Pieces -/

/-- What edits put behind a first one stands behind all that the first one is widened to. -/
theorem widen_le_of_behind (he : e.Placed text) (hes : ∀ e' ∈ es, e'.Proper text)
    (hsorted : ∀ e' ∈ es, e.hi ≤ e'.lo)
    (hbehind : ∀ e' ∈ es, e'.replacement ≠ "" → cursor ≤ e'.lo) :
  ∀ e' ∈ es, e'.replacement ≠ "" → max cursor (e.widen text).hi ≤ e'.lo
  := fun e' he' hr => Nat.max_le.mpr ⟨hbehind e' he' hr,
    widen_le_of_inked he (hsorted e' he') (hes e' he').inked hr⟩

/-- What takes the place of a piece stands where an edit that puts it there starts. -/
theorem lo_of_replaced_from (hes : ∀ e ∈ es, e.Proper text)
    (hsorted : es.Pairwise fun a b => a.hi ≤ b.lo)
    (hbehind : ∀ e ∈ es, e.replacement ≠ "" → cursor ≤ e.lo)
    (hq : q ∈ piecesFrom text cursor es) (hr : q.replacement = some r) (hne : r ≠ "") :
  ∃ e ∈ es, e.replacement = r ∧ q.lo = e.lo
  := by
  induction es generalizing cursor with
  | nil =>
      obtain rfl : q = _ := by simpa [piecesFrom] using hq
      simp at hr
  | cons e es ih =>
      obtain ⟨he, hes⟩ := List.forall_mem_cons.mp hes
      obtain ⟨hsorted_e, hsorted⟩ := List.pairwise_cons.mp hsorted
      obtain ⟨hbehind_e, hbehind⟩ := List.forall_mem_cons.mp hbehind
      simp only [piecesFrom, List.mem_cons] at hq
      obtain rfl | rfl | hq := hq
      · simp at hr
      · obtain rfl : e.replacement = r := by simpa using hr
        use e, List.mem_cons_self
        rw [widen_eq_self hne]
        exact ⟨rfl, Nat.max_eq_left (hbehind_e hne)⟩
      · obtain ⟨e', he', h⟩ :=
          ih hes hsorted (widen_le_of_behind he.placed hes hsorted_e hbehind) hq
        use e', List.mem_cons_of_mem _ he'

/-- Pieces that start at the end of a part of a text or behind it give nothing for the part. -/
theorem flatMap_outputIn_eq_nil {qs : List Piece} (hqs : ∀ q ∈ qs, hi ≤ q.lo) :
  qs.flatMap (Piece.outputIn text lo hi) = []
  := by
  apply List.flatMap_eq_nil_iff.mpr
  intro q hq
  have hle := hqs q hq
  cases hr : q.replacement with
  | none =>
      rw [Piece.outputIn_of_kept hr]
      apply slice_of_le
      omega
  | some r =>
      rw [Piece.outputIn_of_replaced hr]
      apply if_neg
      omega

/-- A piece that is replaced gives nothing for a part in which no edit starts that puts something in
its place. -/
theorem outputIn_eq_nil_of_replaced (he : e.replacement ≠ "" → q.lo < lo ∨ hi ≤ q.lo)
    (hq : q.replacement = some e.replacement) :
  q.outputIn text lo hi = []
  := by
  rw [Piece.outputIn_of_replaced hq]
  by_cases hr : e.replacement = ""
  · simp [hr]
  · apply if_neg
    have := he hr
    omega

/-- What an edit puts in its place stands where it starts, also when it is widened. -/
theorem outputIn_widen_eq_nil (hbehind : e.replacement ≠ "" → cursor ≤ e.lo)
    (hout : e.lo < lo ∨ hi ≤ e.lo) :
  Piece.outputIn text lo hi ⟨max (e.widen text).lo cursor, max cursor (e.widen text).hi,
    some (e.widen text).replacement⟩ = []
  := by
  apply outputIn_eq_nil_of_replaced (e := e)
  · intro hr
    rw [widen_eq_self hr, Nat.max_eq_left (hbehind hr)]
    exact hout
  · rw [replacement_widen]

/-- Whether a part of a text has another part with nothing but blanks around, on the right of it on the
same line. -/
structure Core (text : List Char) (lo hi a b : Nat) : Prop where
  lo_le : lo ≤ a
  le : a ≤ b
  le_hi : b ≤ hi
  boundary_lo : Boundary text a
  boundary_hi : Boundary text b
  front : BlankBetween text lo a
  back (pos : Nat) (c : Char) (hc : CharAt text pos c) (hle : b ≤ pos) (hlt : pos < hi) :
    isBlank c = true ∧ c ≠ '\n'

/-- An edit behind a part of a text leaves all of it but blanks of its last line. -/
theorem Core.of_behind {start : Nat} (he : e.Placed text) (hle : hi ≤ e.lo)
    (hstart : Boundary text start) (hhi : Boundary text hi) (hlo : lo ≤ start) (hlt : start ≤ hi)
    (hblank : BlankBetween text lo start) :
  Core text lo hi start (max start (min (e.widen text).lo hi))
  := by
  have hwide := widened_widen he
  have hlo_le := hwide.lo_le
  refine ⟨hlo, by omega, by omega, hstart, boundary_max hstart (boundary_min hwide.placed.lo hhi),
    hblank, fun pos c hc hle' hlt' => ?_⟩
  exact ⟨hwide.before pos c hc (by omega) (by omega),
    ne_lineFeed_of_widen he.lo hc (by omega) (by omega)⟩

/-- What the pieces from an offset on give for a part that the edits leave alone: a part of it with
nothing but blanks around. -/
theorem exists_slice_piecesFrom (hes : ∀ e ∈ es, e.Proper text)
    (hsorted : es.Pairwise fun a b => a.hi ≤ b.lo)
    (hbehind : ∀ e ∈ es, e.replacement ≠ "" → cursor ≤ e.lo)
    (hapart : ∀ e ∈ es, e.hi ≤ lo ∨ hi ≤ e.lo) (hcursor : Boundary text cursor)
    (hblank : BlankBetween text lo cursor) (hlo : Boundary text lo) (hhi : Boundary text hi)
    (hle : lo ≤ hi) :
  ∃ a b, Core text lo hi a b ∧
    (piecesFrom text cursor es).flatMap (Piece.outputIn text lo hi) = slice a b text ∧
    (cursor ≤ lo → (∀ e ∈ es, e.hi ≤ lo → (e.widen text).hi ≤ lo) → a = lo) ∧
    ((∀ e ∈ es, e.hi ≤ lo) → b = hi)
  := by
  have hstart : Boundary text (min (max cursor lo) hi) :=
    boundary_min (boundary_max hcursor hlo) hhi
  have hblank_start : BlankBetween text lo (min (max cursor lo) hi) := by
    intro pos c hc hle hlt
    exact hblank pos c hc hle (by omega)
  induction es generalizing cursor with
  | nil =>
      have hend := hhi.le_byteLength
      refine ⟨min (max cursor lo) hi, hi, ⟨by omega, by omega, Nat.le_refl _, hstart, hhi,
        hblank_start, fun pos c _ _ _ => by omega⟩, ?_, fun _ _ => by omega, fun _ => rfl⟩
      simp only [piecesFrom, List.flatMap_cons, List.flatMap_nil, List.append_nil,
        Piece.outputIn, Nat.min_eq_right hend]
      obtain hlt | hge := Nat.lt_or_ge (max cursor lo) hi
      · rw [Nat.min_eq_left (Nat.le_of_lt hlt)]
      · rw [Nat.min_eq_right hge, slice_of_le hge, slice_of_le (Nat.le_refl _)]
  | cons e es ih =>
      obtain ⟨he, hes⟩ := List.forall_mem_cons.mp hes
      obtain ⟨hsorted_e, hsorted⟩ := List.pairwise_cons.mp hsorted
      obtain ⟨hbehind_e, hbehind⟩ := List.forall_mem_cons.mp hbehind
      obtain ⟨hapart_e, hapart⟩ := List.forall_mem_cons.mp hapart
      have hwide := widened_widen he.placed
      have hlo_le := hwide.lo_le
      have hle_hi := hwide.le_hi
      have hlt := he.lt
      rw [piecesFrom, List.flatMap_cons, List.flatMap_cons,
        outputIn_widen_eq_nil hbehind_e (by omega), List.nil_append]
      obtain hfront | hback := hapart_e
      · -- an edit in front of the part
        have hcursor' := boundary_max hcursor hwide.placed.hi
        have hblank' : BlankBetween text lo (max cursor (e.widen text).hi) := by
          intro pos c hc hle hlt
          obtain hlt' | hge := Nat.lt_or_ge pos cursor
          · exact hblank pos c hc hle hlt'
          · exact hwide.after pos c hc (by omega) (by omega)
        obtain ⟨a, b, hcore, heq, hstays, hlast⟩ :=
          ih hes hsorted (widen_le_of_behind he.placed hes hsorted_e hbehind) hapart hcursor'
            hblank' (boundary_min (boundary_max hcursor' hlo) hhi)
            (fun pos c hc hle hlt => hblank' pos c hc hle (by omega))
        refine ⟨a, b, hcore, ?_, ?_, ?_⟩
        · rw [heq, Piece.outputIn]
          dsimp only
          rw [slice_of_le (by omega), List.nil_append]
        · intro hle hall
          obtain ⟨hall_e, hall⟩ := List.forall_mem_cons.mp hall
          exact hstays (Nat.max_le.mpr ⟨hle, hall_e hfront⟩) hall
        · exact fun hall => hlast fun e' he' => hall e' (List.mem_cons_of_mem _ he')
      · -- an edit behind the part, and so are the others
        have hrest : (piecesFrom text (max cursor (e.widen text).hi) es).flatMap
            (Piece.outputIn text lo hi) = [] := by
          apply flatMap_outputIn_eq_nil
          intro q hq
          have := cursor_le_of_mem hq
          omega
        refine ⟨_, _, .of_behind he.placed hback hstart hhi (by omega) (by omega) hblank_start, ?_,
          fun _ _ => by omega, fun hall => ?_⟩
        · rw [hrest, Piece.outputIn, List.append_nil]
          dsimp only
          by_cases hnone : min (max (e.widen text).lo cursor) hi ≤ max cursor lo
          · rw [slice_of_le hnone, slice_of_le (by omega)]
          · congr 1
            · omega
            · omega
        · have := hall e List.mem_cons_self
          omega

/-! ### Parts of the edited text -/

/-- What stands for a part of a text stands for two parts of it one after the other. -/
theorem standing_append (hedits : ∀ e ∈ edits, e.Placed text) (hlo : Boundary text lo)
    (hmid : Boundary text mid) (hhi : Boundary text hi) (hle : lo ≤ mid) (hle' : mid ≤ hi) :
  standing text edits lo hi = standing text edits lo mid ++ standing text edits mid hi
  := by
  apply flatMap_outputIn_append
    (tiles_piecesFrom (Stands.zero text).boundary (placed_merge hedits)) hlo hmid
    (fun _ hpos => boundary_min hpos hhi) hle hle'

theorem standing_of_le (h : hi ≤ lo) :
  standing text edits lo hi = []
  := by
  apply List.flatMap_eq_nil_iff.mpr
  intro q _
  cases hr : q.replacement with
  | none =>
      rw [Piece.outputIn_of_kept hr]
      apply slice_of_le
      omega
  | some r =>
      rw [Piece.outputIn_of_replaced hr]
      apply if_neg
      omega

/-- Edits that take out something put nothing at the end of a text. -/
theorem standing_end (hedits : ∀ e ∈ edits, e.Proper text) :
  standing text edits (byteLength text) (byteLength text + 1) = []
  := by
  apply List.flatMap_eq_nil_iff.mpr
  intro q hq
  have hhi := ((tiles_piecesFrom (Stands.zero text).boundary
    (placed_merge fun e he => (hedits e he).placed)).le_of_mem hq).2.2.2.le_byteLength
  cases hr : q.replacement with
  | none =>
      rw [Piece.outputIn_of_kept hr]
      apply slice_of_le
      omega
  | some r =>
      rw [Piece.outputIn_of_replaced hr]
      by_cases hne : r = ""
      · simp [hne]
      · obtain ⟨m, hm, -, hlo⟩ := lo_of_replaced_from (proper_merge hedits) (disjoint_merge hedits)
          (fun _ _ _ => Nat.zero_le _) hq hr hne
        have hm := proper_merge hedits m hm
        have := hm.lt
        have := hm.placed.hi.le_byteLength
        apply if_neg
        omega

/-- An edited text is what stands for what is before a part of the text, for the part and for what is
behind it. -/
theorem toList_applyAll_of_proper {text : String} (hedits : ∀ e ∈ edits, e.Proper text.toList)
    (hlo : Boundary text.toList lo) (hhi : Boundary text.toList hi) (hle : lo ≤ hi) :
  (applyAll text edits).toList = standing text.toList edits 0 lo
    ++ standing text.toList edits lo hi
    ++ standing text.toList edits hi (byteLength text.toList)
  := by
  have hplaced : ∀ e ∈ edits, e.Placed text.toList := fun e he => (hedits e he).placed
  have hend : Boundary text.toList (byteLength text.toList) := ⟨[], text.toList, by simp⟩
  have hbehind : standing text.toList edits hi (byteLength text.toList + 1)
      = standing text.toList edits hi (byteLength text.toList) := by
    have hbound (pos : Nat) (hpos : Boundary text.toList pos) :
        Boundary text.toList (min pos (byteLength text.toList + 1)) := by
      rwa [Nat.min_eq_left (Nat.le_succ_of_le hpos.le_byteLength)]
    have hsplit := flatMap_outputIn_append
      (tiles_piecesFrom (Stands.zero text.toList).boundary (placed_merge hplaced)) hhi hend hbound
      hhi.le_byteLength (Nat.le_succ _)
    have hnil := standing_end hedits
    unfold standing at *
    rw [hsplit, hnil, List.append_nil]
  rw [toList_applyAll_eq_standing hplaced hlo hhi hle, hbehind]

/-- Nothing stands for a part of a text that deletions take out. -/
theorem standing_of_covered (hedits : ∀ e ∈ edits, e.Proper text)
    (hcovers : ∀ pos, lo ≤ pos → pos < hi → ∃ e ∈ edits, e.Covers pos)
    (hdeletions : ∀ e ∈ edits, e.replacement ≠ "" → e.lo < lo ∨ hi ≤ e.lo) :
  standing text edits lo hi = []
  := by
  have hsorted := pairwise_sortBy_precedes edits
  have hplaced := placed_merge fun e he => (hedits e he).placed
  apply List.flatMap_eq_nil_iff.mpr
  intro q hq
  cases hr : q.replacement with
  | none =>
      rw [Piece.outputIn_of_kept hr]
      apply slice_of_le
      by_contra hlt
      obtain ⟨e, he, hpos⟩ := hcovers (max q.lo lo) (by omega) (by omega)
      obtain ⟨m, hm, hpos⟩ :=
        (exists_covers_merge_iff hsorted).mpr ⟨e, mem_sortBy_iff.mpr he, hpos⟩
      exact not_kept_from hplaced (pairwise_merge hsorted) hm hpos hq hr ⟨by omega, by omega⟩
  | some r =>
      have hmerge : ∀ m ∈ merge (sortBy precedes edits),
          m.replacement ≠ "" → m.lo < lo ∨ hi ≤ m.lo := by
        apply forall_merge
        · exact fun _ _ ha _ => ha
        · exact fun e he => hdeletions e (mem_sortBy_iff.mp he)
      by_cases hne : r = ""
      · simp [Piece.outputIn_of_replaced hr, hne]
      · obtain ⟨m, hm, rfl, hlo⟩ := lo_of_replaced_from (proper_merge hedits)
          (disjoint_merge hedits) (fun _ _ _ => Nat.zero_le _) hq hr hne
        apply outputIn_eq_nil_of_replaced (e := m) _ hr
        rw [hlo]
        apply hmerge m hm

/-- What stands for a part of a text that no edit takes a byte of is the part without some blanks at
its two ends, of which those at the second are no line feeds. -/
theorem standing_of_untouched (hedits : ∀ e ∈ edits, e.Proper text)
    (hnot : ∀ e ∈ edits, ∀ pos, lo ≤ pos → pos < hi → ¬e.Covers pos)
    (hlo : Boundary text lo) (hhi : Boundary text hi) (hle : lo ≤ hi) :
  ∃ front back, slice lo hi text = front ++ standing text edits lo hi ++ back ∧
    (∀ c ∈ front, isBlank c = true) ∧ (∀ c ∈ back, isBlank c = true ∧ c ≠ '\n') ∧
    ((∀ m ∈ merge (sortBy precedes edits), m.hi ≤ lo → (m.widen text).hi ≤ lo) → front = []) ∧
    ((∀ e ∈ edits, e.hi ≤ lo) → back = [])
  := by
  obtain rfl | hlt := Nat.eq_or_lt_of_le hle
  · use [], []
    rw [slice_of_le hle, standing_of_le hle]
    simp
  obtain ⟨a, b, ⟨hlo_a, hab, hb_hi, ha, hb, hblank_a, hblank_b⟩, heq, hfirst, hlast⟩ :=
    exists_slice_piecesFrom (proper_merge hedits) (disjoint_merge hedits)
      (fun _ _ _ => Nat.zero_le _) (apart_merge hedits hnot hlt) (Stands.zero text).boundary
      (fun pos c _ _ hpos => by omega) hlo hhi hle
  have hmem {x y : Nat} (hx : Boundary text x) (hy : Boundary text y) {c : Char}
      (hc : c ∈ slice x y text) : ∃ pos, CharAt text pos c ∧ x ≤ pos ∧ pos < y := by
    rw [← map_locatedIn hx hy] at hc
    obtain ⟨p, hp, rfl⟩ := List.mem_map.mp hc
    use p.1
    exact mem_locatedIn hp
  use slice lo a text, slice b hi text
  refine ⟨?_, ?_, ?_, ?_, ?_⟩
  · rw [standing, heq, ← slice_eq_append hlo ha hb hlo_a hab,
      ← slice_eq_append hlo hb hhi (Nat.le_trans hlo_a hab) hb_hi]
  · intro c hc
    obtain ⟨pos, hchar, hpos, hpos'⟩ := hmem hlo ha hc
    exact hblank_a pos c hchar hpos hpos'
  · intro c hc
    obtain ⟨pos, hchar, hpos, hpos'⟩ := hmem hb hhi hc
    exact hblank_b pos c hchar hpos hpos'
  · intro hall
    rw [hfirst (Nat.zero_le _) hall]
    apply slice_of_le (Nat.le_refl _)
  · intro hall
    have hmerge : ∀ m ∈ merge (sortBy precedes edits), m.hi ≤ lo := by
      apply forall_merge
      · exact fun _ _ ha hb => Nat.max_le.mpr ⟨ha, hb⟩
      · exact fun e he => hall e (mem_sortBy_iff.mp he)
    rw [hlast hmerge]
    apply slice_of_le (Nat.le_refl _)

end Edit

end Prune
