import Prune.Proofs.Number.Integers
import Prune.Proofs.Number.Texts

/-!
# Numbers by way of their texts

A number that is converted to text and back is the number it was, unless it is an integer of more
than 64 bits below `10 ^ 21`: the text of such an integer is that of the nearest integer of 64 bits
(`Value.toNumber_text`).
-/

namespace Prune

namespace Number

open Float.Model (UnpackedFloat)

/-- The magnitude of a number that is whole is the one that its scaled integer says. -/
theorem Binary.magnitude_of_isWhole {b : Binary} (h : b.isWhole = true) :
  (b.magnitude : ℚ) = b.mantissa * 2 ^ b.exponent
  := by
  obtain ⟨negative, m, e⟩ := b
  cases e with
  | ofNat e =>
      change ((m * 2 ^ e : ℕ) : ℚ) = m * 2 ^ (e : ℤ)
      rw [zpow_natCast]
      push_cast
      rfl
  | negSucc e =>
      have hdvd : 2 ^ (e + 1) ∣ m := Nat.dvd_of_mod_eq_zero (beq_iff_eq.mp h)
      change ((m / 2 ^ (e + 1) : ℕ) : ℚ) = m * 2 ^ (Int.negSucc e)
      rw [Nat.cast_div hdvd (by positivity), zpow_negSucc, div_eq_mul_inv]
      push_cast
      rfl

/-- The numbers that are not whole are below `2 ^ 53`. -/
theorem Binary.lt_of_not_isWhole {b : Binary} (hm : b.mantissa < 2 ^ 53) (h : b.isWhole ≠ true) :
  (b.mantissa * 2 ^ b.exponent : ℚ) < 2 ^ 53
  := by
  obtain ⟨negative, m, e⟩ := b
  cases e with
  | ofNat e => exact absurd rfl h
  | negSucc e =>
      have hm : (m : ℚ) < 2 ^ 53 := by exact_mod_cast hm
      have hpow : (2 : ℚ) ^ (Int.negSucc e) ≤ 1 :=
        zpow_le_one_of_nonpos₀ one_le_two (Int.negSucc_lt_zero e).le
      calc (m * 2 ^ (Int.negSucc e) : ℚ) ≤ m * 1 := by gcongr
        _ < 2 ^ 53 := by rw [mul_one]; exact hm

/-- A number that is whole is its truncation. -/
theorem Binary.value_eq_truncate {b : Binary} (h : b.isWhole = true) :
  b.value = b.truncate
  := by
  rw [Binary.value, ← magnitude_of_isWhole h, b.truncate_eq_magnitude]
  cases b.negative <;> simp

theorem Binary.abs_value (b : Binary) :
  |b.value| = b.mantissa * 2 ^ b.exponent
  := by
  have hnonneg : (0 : ℚ) ≤ b.mantissa * 2 ^ b.exponent := by positivity
  rw [Binary.value, abs_mul, abs_of_nonneg hnonneg]
  cases b.negative <;> simp

/-- The double `2 ^ 63`, which the greatest integer of 64 bits reads as. -/
theorem legal_two_pow_63 :
  Legal (2 ^ 52) 11
  := by
  constructor <;> decide

theorem reads_two_pow_63_sub_one :
  Reads (2 ^ 52) 11 (2 ^ 63 - 1)
  := by
  constructor
  · rw [Near, if_pos (by decide)]
    norm_num
  · intro _ _ _
    rw [Near, if_pos (by decide)]
    norm_num

/-- What is read from the text of the integer of 64 bits that is nearest to a double. -/
theorem value?_ofText_clampInt64 {n : ℤ} {m : ℕ} {q : ℤ} (hlegal : Legal m q)
    (hn : (n.natAbs : ℚ) = m * 2 ^ q) :
  value? (ofText (toString (clampInt64 n)))
    = some (if |(n : ℚ)| ≤ 2 ^ 63 then (n : ℚ) else if 0 < n then 2 ^ 63 else -2 ^ 63)
  := by
  have habs : |(n : ℚ)| = n.natAbs := by rw [Nat.cast_natAbs, Int.cast_abs]
  have hbound : |(n : ℚ)| ≤ 2 ^ 63 ↔ n.natAbs ≤ 2 ^ 63 := by
    rw [habs]
    norm_cast
  simp only [hbound]
  obtain hlarge | hlarge := le_or_gt (2 ^ 63) n
  · have hmax : (((2 ^ 63 - 1 : ℤ).natAbs : ℕ) : ℚ) = 2 ^ 63 - 1 := by norm_num
    have hread := value?_ofText_toString (n := 2 ^ 63 - 1) (hmax ▸ reads_two_pow_63_sub_one)
      legal_two_pow_63
    rw [clampInt64_of_ge hlarge, hread, if_neg (by decide)]
    congr 1
    split_ifs with hle
    · obtain rfl : n = 2 ^ 63 := by omega
      norm_num
    · norm_num
    · omega
  · obtain hsmall | hsmall := lt_or_ge n (-2 ^ 63)
    · have hmin : (((-2 ^ 63 : ℤ).natAbs : ℕ) : ℚ) = (2 ^ 52 : ℕ) * 2 ^ (11 : ℤ) := by norm_num
      have hread := value?_ofText_toString (n := -2 ^ 63) (hmin ▸ reads_self (2 ^ 52) 11)
        legal_two_pow_63
      rw [clampInt64_of_lt hsmall, hread, if_pos (by decide), if_neg (by omega), if_neg (by omega)]
      norm_num
    · have hread := value?_ofText_toString (n := n) (hn ▸ reads_self m q) hlegal
      have hle : n.natAbs ≤ 2 ^ 63 := by omega
      rw [clampInt64_of_fits hsmall hlarge, hread, if_pos hle, ← hn]
      congr 1
      split_ifs with hneg
      · rw [← habs, abs_of_neg (by exact_mod_cast hneg), neg_neg]
      · rw [← habs, abs_of_nonneg (by exact_mod_cast not_lt.mp hneg)]

/-- A zero of either sign is written without it. -/
theorem text_zero {x : Float} {s : UnpackedFloat.Sign} (h : x.toModel.unpack = .zero s) :
  text x = "0"
  := by
  have hwhole : (Binary.mk (isMinus s) 0 (-1074)).isWhole = true := by
    cases s <;> decide +kernel
  have htruncate : (Binary.mk (isMinus s) 0 (-1074)).truncate = 0 := by
    cases s <;> decide +kernel
  rw [text, Binary.ofFloat?_eq, h, Binary.ofUnpacked?]
  simp only [hwhole, htruncate]
  rfl

/-- A double is read from its shortest decimal. -/
theorem value?_ofText_shortest {m : ℕ} {q : ℤ} (h : Legal m q) (negative : Bool) :
  value? (ofText (if negative then "-" ++ (shortest m q).positional else (shortest m q).positional))
    = some (Binary.mk negative m q).value
  := by
  obtain ⟨hreads, hexponent⟩ := reads_shortest h
  obtain ⟨hpositive, hnegative⟩ := value?_ofText_positional hreads h hexponent
  cases negative with
  | false => simpa [Binary.value] using hpositive
  | true => simpa [Binary.value] using hnegative

/-- Of a number that is not zero, what is read from its text. -/
theorem value?_ofText_text {x : Float} {s : UnpackedFloat.Sign} {m : ℕ} {q : ℤ} {hm : 0 < m}
    {r : ℚ} (h : x.toModel.unpack = .finite s m q hm) (hr : value? x = some r) :
  value? (ofText (text x))
    = some (if |r| ≤ 2 ^ 63 ∨ 10 ^ 21 ≤ |r| then r else if 0 < r then 2 ^ 63 else -2 ^ 63)
  := by
  have hlegal := legal_of_unpack h
  set b : Binary := ⟨isMinus s, m, q⟩
  have hb : Binary.ofFloat? x = some b := by
    rw [Binary.ofFloat?_eq, h]
    rfl
  rw [value?_eq, hb] at hr
  obtain rfl := Option.some.inj hr
  have hshortest := value?_ofText_shortest hlegal b.negative
  have habs : |b.value| = m * 2 ^ q := b.abs_value
  rw [text, hb]
  simp only [Bool.and_eq_true, decide_eq_true_iff]
  by_cases hwhole : b.isWhole = true
  · have hvalue := b.value_eq_truncate hwhole
    have hnatAbs : (b.truncate.natAbs : ℚ) = |b.value| := by
      rw [Nat.cast_natAbs, Int.cast_abs, hvalue]
    by_cases hsmall : b.truncate.natAbs < 10 ^ 21
    · have hnot : ¬ 10 ^ 21 ≤ |b.value| := by
        rw [← hnatAbs, not_le]
        exact_mod_cast hsmall
      have hpos : 0 < b.truncate ↔ 0 < b.value := by
        rw [hvalue, Int.cast_pos]
      have hread := value?_ofText_clampInt64 hlegal (hnatAbs.trans habs)
      rw [← hvalue] at hread
      simp only [hpos] at hread
      rw [if_pos ⟨hwhole, hsmall⟩, hread]
      simp only [hnot, or_false]
    · have hlarge : 10 ^ 21 ≤ |b.value| := by
        rw [← hnatAbs]
        exact_mod_cast not_lt.mp hsmall
      have hcond : |b.value| ≤ 2 ^ 63 ∨ 10 ^ 21 ≤ |b.value| := .inr hlarge
      rw [if_neg (fun h => hsmall h.2), if_pos hcond]
      exact hshortest
  · have hlt : |b.value| ≤ 2 ^ 63 := by
      have := b.lt_of_not_isWhole hlegal.lt hwhole
      rw [habs]
      exact this.le.trans (by norm_num)
    have hcond : |b.value| ≤ 2 ^ 63 ∨ 10 ^ 21 ≤ |b.value| := .inl hlt
    rw [if_neg (fun h => hwhole h.1), if_pos hcond]
    exact hshortest

end Number

namespace Value

/-- A number by way of its text is the number itself, unless it is an integer of more than 64 bits
below `10 ^ 21`: such integers become `2 ^ 63` and `-2 ^ 63`. -/
theorem toNumber_text {x : Float} {r : ℚ} (h : Number.value? x = some r) :
  Number.value? (Value.string (Value.number x).text).toNumber
    = some (if |r| ≤ 2 ^ 63 ∨ 10 ^ 21 ≤ |r| then r else if 0 < r then 2 ^ 63 else -2 ^ 63)
  := by
  change Number.value? (Number.ofText (Number.text x)) = _
  cases hunpack : x.toModel.unpack with
  | infinity s => simp [Number.value?, hunpack, Number.unpackedValue?] at h
  | notANumber => simp [Number.value?, hunpack, Number.unpackedValue?] at h
  | zero s =>
      rw [Number.value?, hunpack] at h
      obtain rfl := Option.some.inj h
      rw [Number.text_zero hunpack, if_pos (Or.inl (by simp))]
      decide +kernel
  | finite s m q hm => exact Number.value?_ofText_text hunpack h

/-- The double next to one tenth is written with one digit. -/
theorem toNumber_text_tenth :
  Number.value? 0.1 = some (3602879701896397 / 2 ^ 55)
    ∧ (Value.number 0.1).text = "0.1"
    ∧ Number.value? (Value.string (Value.number 0.1).text).toNumber
      = some (3602879701896397 / 2 ^ 55)
  := by
  have hvalue : Number.value? 0.1 = some (3602879701896397 / 2 ^ 55) := by
    decide +kernel
  refine ⟨hvalue, by decide +kernel, ?_⟩
  rw [toNumber_text hvalue, if_pos]
  decide +kernel

/-- The number `10 ^ 20` is an integer of 67 bits, and is written as one of 63. -/
theorem toNumber_text_ten_pow_20 :
  Number.value? 1e20 = some (10 ^ 20)
    ∧ (Value.number 1e20).text = "9223372036854775807"
    ∧ Number.value? (Value.string (Value.number 1e20).text).toNumber = some (2 ^ 63)
  := by
  decide +kernel

end Value

end Prune
