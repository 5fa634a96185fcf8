import Prune.Proofs.Number.Doubles
import Prune.Value.Basic

/-!
# Conversion to 32-bit integers

A number is converted to 32 bits by way of 64: what is taken modulo `2 ^ 32` is the 64-bit integer
nearest to the truncation of the number (`Number.truncation`).  So the result is the integer of 32
bits that is congruent to the truncation as long as the truncation has 64 bits, and otherwise minus
one above and zero below (`Value.toInt32_eq_iff`).
-/

namespace Prune

namespace Number

/-! ### Truncation -/

/-- A number without its fraction: the integer next to zero among the two nearest to it. -/
def truncation (r : ℚ) : ℤ :=
  if r < 0 then ⌈r⌉ else ⌊r⌋

theorem truncation_neg {r : ℚ} (h : 0 ≤ r) :
  truncation (-r) = -⌊r⌋
  := by
  obtain rfl | hpos := h.eq_or_lt
  · rfl
  · rw [truncation, if_pos (neg_neg_of_pos hpos), Int.ceil_neg]

/-- The magnitude of a scaled integer without its fraction. -/
def Binary.magnitude (b : Binary) : ℕ :=
  match b.exponent with
  | .ofNat e => b.mantissa * twoTo e
  | .negSucc e => b.mantissa / twoTo (e + 1)

theorem Binary.floor_eq (b : Binary) :
  ⌊(b.mantissa * 2 ^ b.exponent : ℚ)⌋ = b.magnitude
  := by
  obtain ⟨negative, m, e⟩ := b
  cases e with
  | ofNat e =>
      have h : (m * 2 ^ (Int.ofNat e) : ℚ) = ((m * 2 ^ e : ℕ) : ℚ) := by
        rw [Int.ofNat_eq_natCast, zpow_natCast]
        push_cast
        rfl
      rw [h, Int.floor_natCast]
      rfl
  | negSucc e =>
      have h : (m * 2 ^ (Int.negSucc e) : ℚ) = (m : ℚ) / ((2 ^ (e + 1) : ℕ) : ℚ) := by
        rw [zpow_negSucc, div_eq_mul_inv]
        push_cast
        rfl
      rw [h, Rat.floor_natCast_div_natCast]
      rfl

theorem Binary.truncate_eq_magnitude (b : Binary) :
  b.truncate = if b.negative then -(b.magnitude : ℤ) else b.magnitude
  := rfl

/-- The truncation of a scaled integer is that of the number it denotes. -/
theorem Binary.truncate_eq (b : Binary) :
  b.truncate = truncation b.value
  := by
  have hnonneg : (0 : ℚ) ≤ b.mantissa * 2 ^ b.exponent := by positivity
  rw [b.truncate_eq_magnitude, ← b.floor_eq, Binary.value]
  cases b.negative with
  | true => simp [truncation_neg hnonneg]
  | false => simp [truncation, hnonneg.not_gt]

/-- The scaled integer of a finite double denotes it. -/
theorem exists_binary {x : Float} {r : ℚ} (h : value? x = some r) :
  ∃ b, Binary.ofFloat? x = some b ∧ b.value = r
  := by
  rw [value?_eq] at h
  exact Option.map_eq_some_iff.mp h

theorem Binary.mantissa_lt {x : Float} {b : Binary} (h : Binary.ofFloat? x = some b) :
  b.mantissa < 2 ^ 53
  := by
  have hlt := fractionBits_lt x
  unfold Binary.ofFloat? at h
  split_ifs at h with hmax hzero
  · obtain rfl := Option.some.inj h
    simp only
    omega
  · obtain rfl := Option.some.inj h
    change fractionBits x + 2 ^ 52 < 2 ^ 53
    omega

/-- A mantissa has no more than 53 bits, so the integers beyond them are even. -/
theorem Binary.two_dvd_magnitude {b : Binary} (h : b.mantissa < 2 ^ 53)
    (hlarge : 2 ^ 53 ≤ b.magnitude) :
  2 ∣ b.magnitude
  := by
  obtain ⟨negative, m, e⟩ := b
  cases e with
  | ofNat e =>
      cases e with
      | zero =>
          change 2 ^ 53 ≤ m * 1 at hlarge
          rw [mul_one] at hlarge
          exact absurd hlarge h.not_ge
      | succ e => exact Dvd.dvd.mul_left (Dvd.intro_left (2 ^ e) rfl) m
  | negSucc e =>
      have hle : m / twoTo (e + 1) ≤ m := Nat.div_le_self m _
      exact absurd (hlarge.trans hle) h.not_ge

/-- The integers from `2 ^ 53` on that doubles are truncated to are even. -/
theorem two_dvd_truncation {x : Float} {r : ℚ} (h : value? x = some r)
    (hlarge : 2 ^ 53 ≤ truncation r) :
  2 ∣ truncation r
  := by
  obtain ⟨b, hb, rfl⟩ := exists_binary h
  rw [← b.truncate_eq, b.truncate_eq_magnitude] at hlarge ⊢
  split_ifs at hlarge ⊢ with hnegative
  · omega
  · have hdvd := Binary.two_dvd_magnitude (Binary.mantissa_lt hb) (by omega)
    omega

/-! ### Integers of 64 bits -/

theorem clampInt64_of_fits {n : ℤ} (hlo : -2 ^ 63 ≤ n) (hhi : n < 2 ^ 63) :
  clampInt64 n = n
  := by
  rw [clampInt64, if_neg (by simp; omega), if_neg (by simp; omega)]

theorem clampInt64_of_ge {n : ℤ} (h : 2 ^ 63 ≤ n) :
  clampInt64 n = 2 ^ 63 - 1
  := by
  rw [clampInt64, if_neg (by simp; omega), if_pos (by simpa using h)]
  rfl

theorem clampInt64_of_lt {n : ℤ} (h : n < -2 ^ 63) :
  clampInt64 n = -2 ^ 63
  := by
  rw [clampInt64, if_pos (by simpa using h)]
  rfl

/-! ### Integers of 32 bits -/

/-- The conversion to 32 bits takes the nearest integer of 64 bits modulo `2 ^ 32`. -/
theorem toInt32_eq {x : Float} {r : ℚ} (h : value? x = some r) :
  (toInt32 x).toInt = (clampInt64 (truncation r)).bmod (2 ^ 32)
  := by
  obtain ⟨b, hb, rfl⟩ := exists_binary h
  rw [toInt32, hb, ← b.truncate_eq]
  exact Int32.toInt_ofInt

theorem toInt32_of_fits {x : Float} {r : ℚ} (h : value? x = some r) (hlo : -2 ^ 63 ≤ truncation r)
    (hhi : truncation r < 2 ^ 63) :
  (toInt32 x).toInt = (truncation r).bmod (2 ^ 32)
  := by
  rw [toInt32_eq h, clampInt64_of_fits hlo hhi]

theorem toInt32_of_ge {x : Float} {r : ℚ} (h : value? x = some r) (hhi : 2 ^ 63 ≤ truncation r) :
  (toInt32 x).toInt = -1
  := by
  rw [toInt32_eq h, clampInt64_of_ge hhi]
  rfl

theorem toInt32_of_lt {x : Float} {r : ℚ} (h : value? x = some r) (hlo : truncation r < -2 ^ 63) :
  (toInt32 x).toInt = 0
  := by
  rw [toInt32_eq h, clampInt64_of_lt hlo]
  rfl

end Number

namespace Value

/-- The 32-bit integer of a value whose number is finite is the one that is congruent to the
truncation of the number if and only if the truncation is an integer of 64 bits, or a multiple of
`2 ^ 32` below those.  All numbers above are converted to minus one, all below to zero. -/
theorem toInt32_eq_iff {v : Value} {r : ℚ} {k : ℤ} (h : Number.value? v.toNumber = some r)
    (hlo : -2 ^ 31 ≤ k) (hhi : k < 2 ^ 31) (hk : k ≡ Number.truncation r [ZMOD 2 ^ 32]) :
  (v.toInt32.toInt = k
      ↔ Number.truncation r < 2 ^ 63
        ∧ (-2 ^ 63 ≤ Number.truncation r ∨ 2 ^ 32 ∣ Number.truncation r))
    ∧ (2 ^ 63 ≤ Number.truncation r → v.toInt32.toInt = -1)
    ∧ (Number.truncation r < -2 ^ 63 → v.toInt32.toInt = 0)
  := by
  refine ⟨?_, Number.toInt32_of_ge h, Number.toInt32_of_lt h⟩
  rw [Int.modEq_iff_dvd] at hk
  rw [toInt32]
  obtain hlarge | hlarge := le_or_gt (2 ^ 63) (Number.truncation r)
  · -- Minus one is odd.
    have heven := Number.two_dvd_truncation h (by omega)
    rw [Number.toInt32_of_ge h hlarge]
    omega
  · obtain hsmall | hsmall := lt_or_ge (Number.truncation r) (-2 ^ 63)
    · rw [Number.toInt32_of_lt h hsmall]
      omega
    · rw [Number.toInt32_of_fits h hsmall hlarge, Int.bmod_eq_iff (by decide)]
      omega

/-- A text is converted by the number that it spells out, here `2 ^ 32 + 5` and a half. -/
theorem toInt32_eq_iff_text :
  Number.value? (Value.string " 4294967301.5").toNumber = some (8589934603 / 2)
    ∧ Number.truncation (8589934603 / 2) = 2 ^ 32 + 5
    ∧ (Value.string " 4294967301.5").toInt32.toInt = 5
  := by
  have hvalue : Number.value? (Value.string " 4294967301.5").toNumber = some (8589934603 / 2) := by
    decide +kernel
  have htruncation : Number.truncation (8589934603 / 2) = 2 ^ 32 + 5 := by
    decide +kernel
  use hvalue, htruncation
  apply (toInt32_eq_iff hvalue (by decide) (by decide) (by rw [htruncation]; decide)).1.mpr
  rw [htruncation]
  decide

/-- The number `2 ^ 64` is congruent to zero, but it is converted to minus one. -/
theorem toInt32_two_pow_64 :
  Number.value? (Value.string "18446744073709551616").toNumber = some (2 ^ 64)
    ∧ 0 ≡ Number.truncation (2 ^ 64) [ZMOD 2 ^ 32]
    ∧ (Value.string "18446744073709551616").toInt32.toInt = -1
  := by
  decide +kernel

end Value

end Prune
