import Mathlib.Data.List.Basic
import Prune.Text.Bytes

/-!
# Offsets in a text

The text that stands at an offset (`Stands`), the offsets between two characters (`Boundary`), and
what `takeBytes`, `dropBytes` and `slice` give at such offsets.  Two offsets between characters cut
a text into three parts (`Stands.exists_between`).  At other offsets, or when the second comes before
the first, the checked form of `slice` gives nothing (`slice?`).
-/

namespace Prune.Text

@[simp, grind =] theorem byteLength_nil :
  byteLength [] = 0
  := rfl

@[simp, grind =] theorem byteLength_cons (c : Char) (cs : List Char) :
  byteLength (c :: cs) = c.utf8Size + byteLength cs
  := rfl

@[simp, grind =] theorem byteLength_append (cs ds : List Char) :
  byteLength (cs ++ ds) = byteLength cs + byteLength ds
  := by
  induction cs with
  | nil => simp
  | cons c cs ih => simp [ih, Nat.add_assoc]

@[simp] theorem byteLength_reverse (cs : List Char) :
  byteLength cs.reverse = byteLength cs
  := by
  induction cs with
  | nil => rfl
  | cons c cs ih => simp [ih, Nat.add_comm]

theorem length_le_byteLength (cs : List Char) :
  cs.length ≤ byteLength cs
  := by
  induction cs with
  | nil => simp
  | cons c cs ih =>
      have := c.utf8Size_pos
      simp only [List.length_cons, byteLength_cons]
      omega

/-! ### Parts of a text -/

@[simp] theorem dropBytes_nil (n : Nat) :
  dropBytes n [] = []
  := by
  rw [dropBytes]

@[simp] theorem takeBytes_nil (n : Nat) :
  takeBytes n [] = []
  := by
  rw [takeBytes]

@[simp] theorem dropBytes_byteLength (pre rest : List Char) :
  dropBytes (byteLength pre) (pre ++ rest) = rest
  := by
  induction pre with
  | nil => cases rest <;> simp [dropBytes]
  | cons c pre ih =>
      have := c.utf8Size_pos
      rw [List.cons_append, dropBytes, byteLength_cons, if_neg (by simp; omega),
        Nat.add_sub_cancel_left, ih]

@[simp] theorem takeBytes_byteLength (pre rest : List Char) :
  takeBytes (byteLength pre) (pre ++ rest) = pre
  := by
  induction pre with
  | nil => cases rest <;> simp [takeBytes]
  | cons c pre ih =>
      have := c.utf8Size_pos
      rw [List.cons_append, takeBytes, byteLength_cons, if_neg (by simp; omega),
        Nat.add_sub_cancel_left, ih]

/-- A text between two others. -/
theorem slice_append (pre mid rest : List Char) :
  slice (byteLength pre) (byteLength pre + byteLength mid) (pre ++ mid ++ rest) = mid
  := by
  rw [slice, List.append_assoc, dropBytes_byteLength, Nat.add_sub_cancel_left,
    takeBytes_byteLength]

/-- No part of a text lies between an offset and one before it. -/
theorem slice_of_le {text : List Char} {lo hi : Nat} (h : hi ≤ lo) :
  slice lo hi text = []
  := by
  have hzero : hi - lo = 0 := by omega
  rw [slice, hzero]
  cases dropBytes lo text <;> simp [takeBytes]

/-! ### Offsets between characters -/

/-- Whether a text ends in what stands at an offset. -/
def Stands (text rest : List Char) (pos : Nat) : Prop :=
  ∃ pre, text = pre ++ rest ∧ byteLength pre = pos

/-- Whether an offset lies between two characters of a text, or at one of its ends. -/
def Boundary (text : List Char) (pos : Nat) : Prop :=
  ∃ rest, Stands text rest pos

namespace Stands

variable {text rest : List Char} {pos : Nat}

theorem zero (text : List Char) :
  Stands text text 0
  := ⟨[], rfl, rfl⟩

theorem boundary (h : Stands text rest pos) :
  Boundary text pos
  := ⟨rest, h⟩

/-- What stands behind some characters. -/
theorem append {mid : List Char} (h : Stands text (mid ++ rest) pos) :
  Stands text rest (pos + byteLength mid)
  := by
  obtain ⟨pre, rfl, rfl⟩ := h
  use pre ++ mid
  simp

theorem cons {c : Char} (h : Stands text (c :: rest) pos) :
  Stands text rest (pos + c.utf8Size)
  := by
  exact append (show Stands text ([c] ++ rest) pos from h)

theorem trans {last : List Char} {n : Nat} (h : Stands text rest pos) (h' : Stands rest last n) :
  Stands text last (pos + n)
  := by
  obtain ⟨mid, rfl, rfl⟩ := h'
  apply h.append

theorem of_suffix (h : rest <:+ text) :
  Stands text rest (byteLength text - byteLength rest)
  := by
  obtain ⟨pre, rfl⟩ := h
  use pre
  simp

theorem dropBytes_eq (h : Stands text rest pos) :
  dropBytes pos text = rest
  := by
  obtain ⟨pre, rfl, rfl⟩ := h
  simp

theorem add_byteLength (h : Stands text rest pos) :
  pos + byteLength rest = byteLength text
  := by
  obtain ⟨pre, rfl, rfl⟩ := h
  simp

theorem unique {rest' : List Char} (h : Stands text rest pos) (h' : Stands text rest' pos) :
  rest = rest'
  := by
  rw [← h.dropBytes_eq, h'.dropBytes_eq]

/-- Of two offsets between characters, what stands at the first is what stands between them and
what stands at the second. -/
theorem exists_between {rest' : List Char} {pos' : Nat} (h : Stands text rest pos)
    (h' : Stands text rest' pos') (hle : pos ≤ pos') :
  ∃ mid, rest = mid ++ rest' ∧ pos' = pos + byteLength mid
  := by
  obtain ⟨pre, htext, rfl⟩ := h
  obtain ⟨pre', htext', rfl⟩ := h'
  rw [htext] at htext'
  obtain ⟨mid, rfl, rfl⟩ | ⟨mid, rfl, rfl⟩ := List.append_eq_append_iff.mp htext'
  · exact ⟨mid, rfl, by simp⟩
  · -- the parts overlap, so that nothing stands between them
    have hmid : mid = [] := by
      have := length_le_byteLength mid
      simp only [byteLength_append] at hle
      exact List.length_eq_zero_iff.mp (by omega)
    subst hmid
    exact ⟨[], by simp, by simp⟩

end Stands

/-- Whether a character stands at an offset. -/
def CharAt (text : List Char) (pos : Nat) (c : Char) : Prop :=
  ∃ rest, Stands text (c :: rest) pos

theorem CharAt.unique {text : List Char} {pos : Nat} {c d : Char} (hc : CharAt text pos c)
    (hd : CharAt text pos d) :
  c = d
  := by
  obtain ⟨rest, hrest⟩ := hc
  obtain ⟨rest', hrest'⟩ := hd
  exact (List.cons.inj (hrest.unique hrest')).1

/-- A character between two offsets is one of those that stand between them. -/
theorem CharAt.mem {text mid rest : List Char} {lo pos : Nat} {c : Char} (h : CharAt text pos c)
    (hmid : Stands text (mid ++ rest) lo) (hlo : lo ≤ pos) (hhi : pos < lo + byteLength mid) :
  c ∈ mid
  := by
  obtain ⟨rest', h⟩ := h
  obtain ⟨front, heq, rfl⟩ := hmid.exists_between h hlo
  obtain ⟨back, rfl, hrest⟩ | ⟨back, rfl, -⟩ := List.append_eq_append_iff.mp heq
  · simp only [byteLength_append] at hhi
    omega
  · cases back with
    | nil => simp at hhi
    | cons c' back => simp_all

/-- A character not before an offset is the one that stands there or lies behind it. -/
theorem CharAt.eq_or_le {text rest : List Char} {pos pos' : Nat} {c c' : Char}
    (h : CharAt text pos' c') (hrest : Stands text (c :: rest) pos) (hle : pos ≤ pos') :
  pos' = pos ∧ c' = c ∨ pos + c.utf8Size ≤ pos'
  := by
  obtain ⟨rest', h⟩ := h
  obtain ⟨mid, heq, rfl⟩ := hrest.exists_between h hle
  cases mid with
  | nil => simp_all
  | cons d mid =>
      simp only [List.cons_append, List.cons.injEq] at heq
      simp [heq.1]

theorem Boundary.stands_dropBytes {text : List Char} {pos : Nat} (h : Boundary text pos) :
  Stands text (dropBytes pos text) pos
  := by
  obtain ⟨rest, h⟩ := h
  rw [h.dropBytes_eq]
  exact h

theorem Boundary.le_byteLength {text : List Char} {pos : Nat} (h : Boundary text pos) :
  pos ≤ byteLength text
  := by
  obtain ⟨rest, hrest⟩ := h
  have := hrest.add_byteLength
  omega

/-- The part of a text between two offsets between characters. -/
theorem slice_of_stands {text rest rest' mid : List Char} {lo hi : Nat}
    (h : Stands text rest lo) (hmid : rest = mid ++ rest') (hhi : hi = lo + byteLength mid) :
  slice lo hi text = mid
  := by
  obtain ⟨pre, rfl, rfl⟩ := h
  subst hmid hhi
  rw [← List.append_assoc, slice_append]

/-! ### Checked parts of a text -/

theorem boundary_nil_iff {pos : Nat} :
  Boundary [] pos ↔ pos = 0
  := by
  constructor
  · intro h
    apply Nat.le_zero.mp h.le_byteLength
  · rintro rfl
    apply (Stands.zero []).boundary

/-- An offset between characters is the front of the text, or lies between those behind the first. -/
theorem boundary_cons_iff {c : Char} {cs : List Char} {pos : Nat} :
  Boundary (c :: cs) pos ↔ pos = 0 ∨ c.utf8Size ≤ pos ∧ Boundary cs (pos - c.utf8Size)
  := by
  constructor
  · rintro ⟨rest, pre, heq, rfl⟩
    cases pre with
    | nil => exact .inl rfl
    | cons d pre =>
        obtain ⟨rfl, rfl⟩ := List.cons.inj heq
        rw [byteLength_cons, Nat.add_sub_cancel_left]
        exact .inr ⟨Nat.le_add_right _ _, rest, pre, rfl, rfl⟩
  · rintro (rfl | ⟨hle, rest, pre, rfl, hpos⟩)
    · apply (Stands.zero _).boundary
    · use rest, c :: pre
      rw [byteLength_cons, hpos, Nat.add_sub_cancel' hle]
      exact ⟨rfl, rfl⟩

instance decidableBoundary : (text : List Char) → (pos : Nat) → Decidable (Boundary text pos)
  | [], _ => decidable_of_iff _ boundary_nil_iff.symm
  | c :: cs, pos =>
    have := decidableBoundary cs (pos - c.utf8Size)
    decidable_of_iff _ boundary_cons_iff.symm

/-- The characters from an offset on are what stands there, if anything does. -/
theorem dropBytes?_eq_some_iff {text rest : List Char} {pos : Nat} :
  dropBytes? pos text = some rest ↔ Stands text rest pos
  := by
  induction text generalizing pos with
  | nil =>
      cases pos with
      | zero =>
          rw [dropBytes?, Option.some.injEq]
          exact ⟨fun h => h ▸ .zero [], fun h => (Stands.zero []).unique h⟩
      | succ n =>
          refine ⟨nofun, fun h => ?_⟩
          have := h.add_byteLength
          simp at this
  | cons c cs ih =>
      cases pos with
      | zero =>
          rw [dropBytes?, Option.some.injEq]
          exact ⟨fun h => h ▸ .zero _, fun h => (Stands.zero _).unique h⟩
      | succ n =>
          rw [dropBytes?]
          split
          · next hle =>
            rw [ih]
            constructor
            · rintro ⟨pre, rfl, hpos⟩
              refine ⟨c :: pre, rfl, ?_⟩
              rw [byteLength_cons]
              omega
            · rintro ⟨pre, heq, hpos⟩
              cases pre with
              | nil => simp at hpos
              | cons d pre =>
                  obtain ⟨rfl, rfl⟩ := List.cons.inj heq
                  rw [byteLength_cons] at hpos
                  exact ⟨pre, rfl, by omega⟩
          · next hlt =>
            refine ⟨nofun, fun h => ?_⟩
            obtain hzero | ⟨hle, -⟩ := boundary_cons_iff.mp h.boundary
            · contradiction
            · exact absurd hle hlt

theorem Stands.dropBytes?_eq {text rest : List Char} {pos : Nat} (h : Stands text rest pos) :
  dropBytes? pos text = some rest
  := dropBytes?_eq_some_iff.mpr h

theorem isBoundary_iff {text : List Char} {pos : Nat} :
  isBoundary text pos = true ↔ Boundary text pos
  := by
  rw [isBoundary, Option.isSome_iff_exists]
  exact exists_congr fun _ => dropBytes?_eq_some_iff

/-- The characters of a text between two offsets; none if the second offset comes before the first,
or if one of them lies inside a character or behind the text. -/
def slice? (lo hi : Nat) (text : List Char) : Option (List Char) :=
  if lo ≤ hi ∧ Boundary text lo ∧ Boundary text hi then some (slice lo hi text) else none

theorem slice?_eq_some {text : List Char} {lo hi : Nat} (hlo : Boundary text lo)
    (hhi : Boundary text hi) (hle : lo ≤ hi) :
  slice? lo hi text = some (slice lo hi text)
  := if_pos ⟨hle, hlo, hhi⟩

theorem slice?_of_stands {text rest rest' mid : List Char} {lo hi : Nat}
    (h : Stands text rest lo) (hmid : rest = mid ++ rest') (hhi : hi = lo + byteLength mid) :
  slice? lo hi text = some mid
  := by
  have hhi' : Boundary text hi := by
    rw [hmid] at h
    rw [hhi]
    apply h.append.boundary
  rw [slice?_eq_some h.boundary hhi' (by omega), slice_of_stands h hmid hhi]

/-! ### Bytes of characters -/

/-- Whether a byte of a text is one of a character. -/
def ByteOf (text : List Char) (pos : Nat) (c : Char) : Prop :=
  ∃ start, CharAt text start c ∧ start ≤ pos ∧ pos < start + c.utf8Size

theorem Stands.exists_byteOf {text rest : List Char} {start pos : Nat} (h : Stands text rest start)
    (hle : start ≤ pos) (hlt : pos < byteLength text) :
  ∃ c, ByteOf text pos c
  := by
  induction rest generalizing start with
  | nil =>
      have := h.add_byteLength
      rw [byteLength_nil] at this
      omega
  | cons c rest ih =>
      by_cases hpos : pos < start + c.utf8Size
      · exact ⟨c, start, ⟨rest, h⟩, hle, hpos⟩
      · apply ih h.cons (by omega)

/-- Each byte of a text is one of a character. -/
theorem exists_byteOf {text : List Char} {pos : Nat} (h : pos < byteLength text) :
  ∃ c, ByteOf text pos c
  := (Stands.zero text).exists_byteOf (Nat.zero_le _) h

/-- No offset between characters lies inside a character. -/
theorem CharAt.le_or_le {text : List Char} {start pos : Nat} {c : Char} (h : CharAt text start c)
    (hpos : Boundary text pos) :
  pos ≤ start ∨ start + c.utf8Size ≤ pos
  := by
  obtain ⟨rest, h⟩ := h
  obtain ⟨rest', h'⟩ := hpos
  by_contra hinside
  obtain ⟨mid, hmid, rfl⟩ := h.exists_between h' (by omega)
  cases mid with
  | nil => simp at hinside
  | cons d mid =>
      obtain ⟨rfl, -⟩ := List.cons.inj hmid
      simp at hinside

end Prune.Text
