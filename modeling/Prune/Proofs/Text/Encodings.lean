import Mathlib.Data.List.Basic
import Mathlib.Order.Bounds.Basic
import Prune.Text.Units

/-!
# Search in encoded texts

In a self-synchronizing encoding (`SelfSynchronizing`) the code of a character begins with a unit
that stands nowhere else in codes, and is the beginning of no other code.  In such an encoding a text
occurs only where it occurs as characters (`exists_of_occursAt`), and so prefixes, suffixes and the
first occurrences of texts can be looked up in any such encoding (`encode_prefix_iff`,
`encode_suffix_iff`, `isLeast_occursAt`).  UTF-8 and UTF-16 are self-synchronizing
(`selfSynchronizing_bytes`, `selfSynchronizing_units`).
-/

namespace Prune.Text

/-- The code of a text, character by character. -/
def encode {α : Type} (code : Char → List α) (cs : List Char) : List α :=
  cs.flatMap code

/-- Whether a list occurs in another at a position. -/
def OccursAt {α : Type} (needle text : List α) (k : ℕ) : Prop :=
  needle <+: text.drop k

/-- An encoding is self-synchronizing if the units that begin a code stand nowhere else in codes and
no code begins with another. -/
structure SelfSynchronizing {α : Type} (code : Char → List α) (Starts : α → Prop) : Prop where
  ne_nil (c : Char) : code c ≠ []
  starts_iff (c : Char) (i : ℕ) (h : i < (code c).length) : Starts (code c)[i] ↔ i = 0
  eq_of_prefix (c d : Char) : code c <+: code d → c = d

section

variable {α : Type} {code : Char → List α} {Starts : α → Prop}

theorem encode_cons (c : Char) (cs : List Char) :
  encode code (c :: cs) = code c ++ encode code cs
  := List.flatMap_cons

theorem encode_append (cs ds : List Char) :
  encode code (cs ++ ds) = encode code cs ++ encode code ds
  := List.flatMap_append

theorem SelfSynchronizing.encode_eq_nil (hcode : SelfSynchronizing code Starts) {cs : List Char} :
  encode code cs = [] ↔ cs = []
  := by
  cases cs with
  | nil => exact iff_of_true rfl rfl
  | cons c cs => simp [encode_cons, hcode.ne_nil]

/-- A text begins with another if its code does. -/
theorem SelfSynchronizing.prefix_iff (hcode : SelfSynchronizing code Starts) {cs ds : List Char} :
  encode code cs <+: encode code ds ↔ cs <+: ds
  := by
  constructor
  · intro h
    induction cs generalizing ds with
    | nil => exact List.nil_prefix
    | cons c cs ih =>
        rw [encode_cons] at h
        cases ds with
        | nil => exact absurd (List.append_eq_nil_iff.mp (List.prefix_nil.mp h)).1 (hcode.ne_nil c)
        | cons d ds =>
            rw [encode_cons] at h
            -- Of two codes at the front of one text, the shorter begins the longer.
            obtain rfl : c = d := by
              obtain hle | hle := List.prefix_or_prefix_of_prefix
                ((List.prefix_append _ _).trans h) (List.prefix_append (code d) (encode code ds))
              · exact hcode.eq_of_prefix c d hle
              · exact (hcode.eq_of_prefix d c hle).symm
            rw [List.prefix_append_right_inj] at h
            exact List.cons_prefix_cons.mpr ⟨rfl, ih h⟩
  · rintro ⟨rest, rfl⟩
    rw [encode_append]
    exact List.prefix_append _ _

/-- The code of a text that is not empty occurs only where the text does. -/
theorem SelfSynchronizing.exists_of_occursAt (hcode : SelfSynchronizing code Starts)
    {needle text : List Char} {k : ℕ} (hne : needle ≠ [])
    (h : OccursAt (encode code needle) (encode code text) k) :
  ∃ pre rest, text = pre ++ rest ∧ needle <+: rest ∧ (encode code pre).length = k
  := by
  induction text generalizing k with
  | nil =>
      have hnil : encode code needle <+: [] := by simpa [OccursAt, encode] using h
      exact absurd (hcode.encode_eq_nil.mp (List.prefix_nil.mp hnil)) hne
  | cons c text ih =>
      obtain rfl | hpos := Nat.eq_zero_or_pos k
      · exact ⟨[], c :: text, rfl, hcode.prefix_iff.mp h, rfl⟩
      · obtain hlt | hle := lt_or_ge k (code c).length
        · -- Within the code of a character no code begins.
          obtain ⟨d, ds, rfl⟩ := List.exists_cons_of_ne_nil hne
          have hlength := List.length_pos_iff.mpr (hcode.ne_nil d)
          have hunit : (code d)[0] = (code c)[k] := by
            obtain ⟨tail, htail⟩ := h
            have hhead := congrArg (·[0]?) htail
            rw [encode_cons, encode_cons] at hhead
            simpa [List.getElem?_append_left, hlength, hlt] using hhead
          have hstart := (hcode.starts_iff d 0 hlength).mpr rfl
          rw [hunit, hcode.starts_iff] at hstart
          omega
        · rw [OccursAt, encode_cons, List.drop_append, List.drop_eq_nil_of_le hle] at h
          obtain ⟨pre, rest, rfl, hprefix, hlength⟩ := ih h
          refine ⟨c :: pre, rest, rfl, hprefix, ?_⟩
          rw [encode_cons, List.length_append, hlength]
          omega

/-- A text ends with another if its code does. -/
theorem SelfSynchronizing.suffix_iff (hcode : SelfSynchronizing code Starts) {cs ds : List Char} :
  encode code cs <:+ encode code ds ↔ cs <:+ ds
  := by
  constructor
  · rintro ⟨front, hfront⟩
    by_cases hne : cs = []
    · rw [hne]
      exact List.nil_suffix
    · have hoccurs : OccursAt (encode code cs) (encode code ds) front.length := by
        simp [OccursAt, ← hfront]
      obtain ⟨pre, rest, rfl, ⟨tail, rfl⟩, hlength⟩ := hcode.exists_of_occursAt hne hoccurs
      -- The occurrence is at the end, so nothing comes behind it.
      have htail : encode code tail = [] := by
        have := congrArg List.length hfront
        rw [encode_append, encode_append, List.length_append, List.length_append,
          List.length_append] at this
        exact List.length_eq_zero_iff.mp (by omega)
      rw [hcode.encode_eq_nil.mp htail, List.append_nil]
      exact List.suffix_append pre cs
  · rintro ⟨front, rfl⟩
    rw [encode_append]
    exact List.suffix_append _ _

/-- The first occurrence of a text in the code is that in the text. -/
theorem SelfSynchronizing.isLeast_occursAt (hcode : SelfSynchronizing code Starts)
    {needle pre rest : List Char} (h : needle <+: rest)
    (hfirst : ∀ pre' rest', pre ++ rest = pre' ++ rest' → needle <+: rest' → pre <+: pre') :
  IsLeast {k | OccursAt (encode code needle) (encode code (pre ++ rest)) k} (encode code pre).length
  := by
  constructor
  · change _ <+: _
    rw [encode_append, List.drop_left]
    exact hcode.prefix_iff.mpr h
  · intro k hk
    by_cases hne : needle = []
    · have hnil : pre = [] := by
        have := hfirst [] (pre ++ rest) rfl (by rw [hne]; exact List.nil_prefix)
        exact List.prefix_nil.mp this
      rw [hnil]
      exact Nat.zero_le k
    · obtain ⟨pre', rest', heq, hprefix, rfl⟩ := hcode.exists_of_occursAt hne hk
      exact (hcode.prefix_iff.mpr (hfirst pre' rest' heq hprefix)).length_le

/-- A text that occurs nowhere in another does not occur in its code either. -/
theorem SelfSynchronizing.not_occursAt (hcode : SelfSynchronizing code Starts)
    {needle text : List Char} (h : ∀ pre rest, text = pre ++ rest → ¬ needle <+: rest) (k : ℕ) :
  ¬ OccursAt (encode code needle) (encode code text) k
  := by
  intro hk
  have hne : needle ≠ [] := by
    rintro rfl
    exact h [] text rfl List.nil_prefix
  obtain ⟨pre, rest, heq, hprefix, -⟩ := hcode.exists_of_occursAt hne hk
  exact h pre rest heq hprefix

end

/-! ### UTF-8 and UTF-16 -/

/-- In UTF-8 a code begins with a byte that does not continue one. -/
theorem selfSynchronizing_bytes :
  SelfSynchronizing String.utf8EncodeChar UInt8.IsUTF8FirstByte
  where
  ne_nil c := by
    rw [← List.length_pos_iff, String.length_utf8EncodeChar]
    exact c.utf8Size_pos
  starts_iff _ _ _ := UInt8.isUTF8FirstByte_getElem_utf8EncodeChar
  eq_of_prefix c d := by
    rintro ⟨rest, hrest⟩
    -- Both are what the first code decodes to.
    have hc := ByteArray.utf8DecodeChar?_utf8EncodeChar_append (b := rest.toByteArray) (c := c)
    have hd := ByteArray.utf8DecodeChar?_utf8EncodeChar_append (b := [].toByteArray) (c := d)
    rw [← List.toByteArray_append, hrest] at hc
    rw [← List.toByteArray_append, List.append_nil, hc] at hd
    exact Option.some.inj hd

/-- A character is outside of the range of surrogates. -/
theorem toNat_lt_or_ge (c : Char) :
  c.toNat < 0xD800 ∨ 0xE000 ≤ c.toNat ∧ c.toNat < 0x110000
  := by
  obtain h | ⟨hlo, hhi⟩ := c.valid
  · exact .inl h
  · exact .inr ⟨hlo, hhi⟩

theorem charUnits_of_lt {c : Char} (h : c.toNat < 0x10000) :
  charUnits c = [c.toNat]
  := if_pos h

theorem charUnits_of_ge {c : Char} (h : 0x10000 ≤ c.toNat) :
  charUnits c
    = [0xD800 + (c.toNat - 0x10000) / 0x400, 0xDC00 + (c.toNat - 0x10000) % 0x400]
  := if_neg h.not_gt

/-- In UTF-16 a code begins with a unit that is not the second of a pair of surrogates. -/
theorem selfSynchronizing_units :
  SelfSynchronizing charUnits (fun u => u < 0xDC00 ∨ 0xE000 ≤ u)
  where
  ne_nil c := by
    rw [charUnits]
    split_ifs <;> simp
  starts_iff c i h := by
    have hrange := toNat_lt_or_ge c
    obtain hlt | hge := lt_or_ge c.toNat 0x10000
    · simp only [charUnits_of_lt hlt] at h ⊢
      obtain rfl : i = 0 := Nat.lt_one_iff.mp h
      rw [List.getElem_cons_zero]
      omega
    · simp only [charUnits_of_ge hge] at h ⊢
      obtain rfl | rfl : i = 0 ∨ i = 1 := by
        change i < 2 at h
        omega
      · rw [List.getElem_cons_zero]
        omega
      · rw [List.getElem_cons_succ, List.getElem_cons_zero]
        omega
  eq_of_prefix c d h := by
    have hc := toNat_lt_or_ge c
    have hd := toNat_lt_or_ge d
    apply Char.toNat_inj.mp
    obtain hc' | hc' := lt_or_ge c.toNat 0x10000 <;> obtain hd' | hd' := lt_or_ge d.toNat 0x10000
    · rw [charUnits_of_lt hc', charUnits_of_lt hd'] at h
      simpa using h
    · -- A character of one unit is no surrogate.
      rw [charUnits_of_lt hc', charUnits_of_ge hd', List.cons_prefix_cons] at h
      omega
    · rw [charUnits_of_ge hc', charUnits_of_lt hd'] at h
      exact absurd h.length_le (by simp)
    · rw [charUnits_of_ge hc', charUnits_of_ge hd', List.cons_prefix_cons, List.cons_prefix_cons] at h
      omega

theorem units_eq (cs : List Char) :
  units cs = encode charUnits cs
  := rfl

theorem unitCount_eq (cs : List Char) :
  unitCount cs = (units cs).length
  := by
  induction cs with
  | nil => rfl
  | cons c cs ih =>
      rw [units_eq, encode_cons, List.length_append, ← units_eq, ← ih, charUnits, unitCount,
        List.foldr_cons, ← unitCount]
      split_ifs <;> rfl

end Prune.Text
