import Prune.Number.Decimal
import Prune.Proofs.Number.Rounding

/-!
# The doubles of decimals

A decimal denotes the number `digits · 10 ^ exponent` (`Decimal.value`).  Its double is the one that
this number reads as (`Decimal.toFloat_unpack`), whether it comes from one operation on doubles or
from the digits as a whole.  Powers of two and of ten are compared on the way through
`10 ^ 59 ≤ 2 ^ 196` and `2 ^ 93 ≤ 10 ^ 28`.
-/

namespace Prune.Number

open Float.Model (UnpackedFloat Format)

/-- The number that a decimal denotes. -/
def Decimal.value (d : Decimal) : ℚ :=
  d.digits * 10 ^ d.exponent

/-! ### Powers of two and ten -/

/-- `10 ^ n ≤ 2 ^ l`, by the quotient `196 / 59` next to the binary logarithm of ten. -/
theorem ten_pow_le_two_pow {n l : ℕ} (h : 196 * n ≤ 59 * l) :
  10 ^ n ≤ 2 ^ l
  := by
  apply (Nat.pow_le_pow_iff_left (show 59 ≠ 0 by decide)).mp
  calc (10 ^ n) ^ 59 = (10 ^ 59) ^ n := Nat.pow_right_comm 10 n 59
    _ ≤ (2 ^ 196) ^ n := Nat.pow_le_pow_left (by decide) n
    _ = 2 ^ (196 * n) := (Nat.pow_mul 2 196 n).symm
    _ ≤ 2 ^ (59 * l) := Nat.pow_le_pow_right two_pos h
    _ = (2 ^ l) ^ 59 := by rw [Nat.mul_comm, Nat.pow_mul]

/-- `2 ^ l ≤ 10 ^ n`, by the quotient `93 / 28` next to the binary logarithm of ten. -/
theorem two_pow_le_ten_pow {n l : ℕ} (h : 28 * l ≤ 93 * n) :
  2 ^ l ≤ 10 ^ n
  := by
  apply (Nat.pow_le_pow_iff_left (show 28 ≠ 0 by decide)).mp
  calc (2 ^ l) ^ 28 = 2 ^ (28 * l) := by rw [Nat.mul_comm, Nat.pow_mul]
    _ ≤ 2 ^ (93 * n) := Nat.pow_le_pow_right two_pos h
    _ = (2 ^ 93) ^ n := Nat.pow_mul 2 93 n
    _ ≤ (10 ^ 28) ^ n := Nat.pow_le_pow_left (by decide) n
    _ = (10 ^ n) ^ 28 := Nat.pow_right_comm 10 28 n

theorem ten_zpow_le_two_zpow {n l : ℤ} (hpos : 0 ≤ n → 196 * n ≤ 59 * l)
    (hneg : n ≤ 0 → 93 * n ≤ 28 * l) :
  (10 : ℚ) ^ n ≤ 2 ^ l
  := by
  obtain ⟨l, rfl | rfl⟩ := l.eq_nat_or_neg
  · obtain ⟨n, rfl | rfl⟩ := n.eq_nat_or_neg
    · rw [zpow_natCast, zpow_natCast]
      exact_mod_cast ten_pow_le_two_pow (by omega)
    · rw [zpow_neg, zpow_natCast, zpow_natCast]
      exact (inv_le_one_of_one_le₀ (one_le_pow₀ (by norm_num))).trans (one_le_pow₀ one_le_two)
  · obtain ⟨n, rfl⟩ : ∃ k : ℕ, n = -k := ⟨(-n).toNat, by omega⟩
    rw [zpow_neg, zpow_neg, zpow_natCast, zpow_natCast]
    exact inv_anti₀ (by positivity) (by exact_mod_cast two_pow_le_ten_pow (by omega))

theorem two_zpow_le_ten_zpow {n l : ℤ} (hpos : 0 ≤ n → 28 * l ≤ 93 * n)
    (hneg : n ≤ 0 → 59 * l ≤ 196 * n) :
  (2 : ℚ) ^ l ≤ 10 ^ n
  := by
  have hinv : (10 : ℚ) ^ (-n) ≤ 2 ^ (-l) := by
    apply ten_zpow_le_two_zpow <;> omega
  rw [zpow_neg, zpow_neg] at hinv
  exact (inv_le_inv₀ (by positivity) (by positivity)).mp hinv

/-! ### The guards against decimals out of range -/

/-- The number that a decimal denotes is between two powers of ten that the length of its digits in
binary gives. -/
theorem Decimal.value_bounds {d : Decimal} (hzero : d.digits ≠ 0) (hdigits : d.digits.log2 < 8000) :
  (10 : ℚ) ^ (d.exponent + (d.digits.log2 : ℤ) * 30103 / 100000 - 1) ≤ d.value
    ∧ d.value < 10 ^ (d.exponent + (d.digits.log2 : ℤ) * 30103 / 100000 + 2)
  := by
  set l := d.digits.log2
  have hlo : (2 : ℚ) ^ (l : ℤ) ≤ d.digits := by
    exact_mod_cast Nat.log2_self_le hzero
  have hhi : (d.digits : ℚ) < 2 ^ (l + 1 : ℤ) := by
    exact_mod_cast Nat.lt_log2_self
  constructor
  · calc (10 : ℚ) ^ (d.exponent + (l : ℤ) * 30103 / 100000 - 1)
        = 10 ^ ((l : ℤ) * 30103 / 100000 - 1) * 10 ^ d.exponent := by
          rw [← zpow_add₀ (by norm_num)]
          congr 1
          ring
      _ ≤ 2 ^ (l : ℤ) * 10 ^ d.exponent := by
          gcongr
          apply ten_zpow_le_two_zpow <;> omega
      _ ≤ d.digits * 10 ^ d.exponent := by gcongr
  · calc d.digits * 10 ^ d.exponent < 2 ^ (l + 1 : ℤ) * (10 : ℚ) ^ d.exponent := by gcongr
      _ ≤ 10 ^ ((l : ℤ) * 30103 / 100000 + 2) * 10 ^ d.exponent := by
          gcongr
          apply two_zpow_le_ten_zpow <;> omega
      _ = 10 ^ (d.exponent + (l : ℤ) * 30103 / 100000 + 2) := by
          rw [← zpow_add₀ (by norm_num)]
          congr 1
          ring

/-- The numbers that read as doubles other than zero are in the range of doubles. -/
theorem Reads.range {m : ℕ} {q : ℤ} {v : ℚ} (h : Reads m q v) (hlegal : Legal m q) :
  (2 : ℚ) ^ (-1075 : ℤ) ≤ v ∧ v < 2 ^ (1024 : ℤ)
  := by
  obtain ⟨hlo, hhi⟩ := h.near.bounds
  rw [le_div_iff₀ (by positivity)] at hlo
  rw [div_le_iff₀ (by positivity)] at hhi
  have hpos : (1 : ℚ) ≤ m := by exact_mod_cast hlegal.pos
  have hlt : (m : ℚ) + 1 ≤ 2 ^ 53 := by exact_mod_cast hlegal.lt
  have hq : (0 : ℚ) < 2 ^ q := by positivity
  constructor
  · calc (2 : ℚ) ^ (-1075 : ℤ) ≤ 2 ^ (q - 1) := zpow_le_zpow_right₀ one_le_two (by
          have := hlegal.le_exponent
          omega)
      _ = 1 / 2 * 2 ^ q := by rw [zpow_sub_one₀ two_ne_zero]; ring
      _ ≤ (m - 1 / 2) * 2 ^ q := by gcongr; linarith
      _ ≤ v := hlo
  · calc v ≤ (m + 1 / 2) * 2 ^ q := hhi
      _ < 2 ^ 53 * 2 ^ q := by gcongr; linarith
      _ = 2 ^ (53 + q) := by rw [zpow_add₀ two_ne_zero]; norm_cast
      _ ≤ 2 ^ (1024 : ℤ) := zpow_le_zpow_right₀ one_le_two (by
          have := hlegal.exponent_le
          omega)

/-- The double of a decimal that is in the range of doubles is computed by rounding. -/
theorem Decimal.toFloat_of_range {d : Decimal} (hzero : d.digits ≠ 0)
    (hdigits : d.digits.log2 < 8000) (hlo : (2 : ℚ) ^ (-1075 : ℤ) ≤ d.value)
    (hhi : d.value < 2 ^ (1024 : ℤ)) :
  d.toFloat = Float.ofScientific d.digits (d.exponent < 0) d.exponent.natAbs
    ∧ -330 ≤ d.exponent + (d.digits.log2 : ℤ) * 30103 / 100000
    ∧ d.exponent + (d.digits.log2 : ℤ) * 30103 / 100000 ≤ 310
  := by
  obtain ⟨hge, hlt⟩ := value_bounds hzero hdigits
  rw [toFloat, if_neg (by simpa using hzero)]
  set magnitude := d.exponent + (d.digits.log2 : ℤ) * 30103 / 100000
  have hinfinity : ¬ 310 < magnitude := by
    intro h
    have hten : (10 : ℚ) ^ (310 : ℤ) ≤ 10 ^ (magnitude - 1) :=
      zpow_le_zpow_right₀ (by norm_num) (by omega)
    have htwo : (2 : ℚ) ^ (1024 : ℤ) ≤ 10 ^ (310 : ℤ) := by
      apply two_zpow_le_ten_zpow <;> omega
    exact hhi.not_ge (htwo.trans (hten.trans hge))
  have hzero : ¬ magnitude < -330 := by
    intro h
    have hten : (10 : ℚ) ^ (magnitude + 2) ≤ 10 ^ (-329 : ℤ) :=
      zpow_le_zpow_right₀ (by norm_num) (by omega)
    have htwo : (10 : ℚ) ^ (-329 : ℤ) ≤ 2 ^ (-1075 : ℤ) := by
      apply ten_zpow_le_two_zpow <;> omega
    exact hlo.not_gt (hlt.trans_le (hten.trans htwo))
  exact ⟨by rw [if_neg hinfinity, if_neg hzero], by omega, by omega⟩

/-! ### Rounding decimals -/

/-- The digits of a decimal as a whole are multiplied or divided by a power of ten. -/
theorem rounded_ofScientific {n : ℕ} {e : ℤ} (hn : 0 < n) (hle : e ≤ 2048)
    (hge : -(2048 + n.log2 : ℤ) ≤ e) :
  Rounded (n * 10 ^ e) (UnpackedFloat.ofScientific .binary64 n e)
  := by
  rw [UnpackedFloat.ofScientific, dif_neg hn.ne', if_neg (by change ¬ e > 2048; omega),
    if_neg (by change ¬ e < -(2048 + n.log2 : ℤ); omega)]
  split_ifs with hsign
  · obtain ⟨k, rfl⟩ := Int.eq_ofNat_of_zero_le hsign
    have hvalue : (n * 10 ^ (k : ℤ) : ℚ)
        = (n <<< 53 : ℕ) * 2 ^ (-53 : ℤ) * ((10 ^ k : ℕ) * 2 ^ (0 : ℤ)) := by
      rw [Nat.shiftLeft_eq, zpow_natCast, zpow_zero, mul_one, Nat.cast_mul, Nat.cast_pow,
        Nat.cast_pow, mul_assoc (n : ℚ), zpow_neg]
      norm_num
    have hdigits : 52 ≤ (n <<< 53 * 10 ^ k).log2 := by
      rw [Nat.shiftLeft_eq, Nat.le_log2 (Nat.mul_pos (Nat.mul_pos hn (by decide))
        (Nat.pow_pos (by decide))).ne']
      calc 2 ^ 52 ≤ 2 ^ 53 := Nat.pow_le_pow_right two_pos (by decide)
        _ ≤ n * 2 ^ 53 := Nat.le_mul_of_pos_left _ hn
        _ ≤ n * 2 ^ 53 * 10 ^ k := Nat.le_mul_of_pos_right _ (Nat.pow_pos (by decide))
    rw [hvalue]
    exact rounded_mul _ _ hdigits
  · obtain ⟨k, rfl⟩ : ∃ k : ℕ, e = -k := ⟨(-e).toNat, by omega⟩
    have hvalue : (n * 10 ^ (-k : ℤ) : ℚ)
        = n * 2 ^ (0 : ℤ) / ((10 ^ (- -(k : ℤ)).toNat : ℕ) * 2 ^ (0 : ℤ)) := by
      rw [neg_neg, Int.toNat_natCast, zpow_neg, zpow_natCast, zpow_zero, mul_one, mul_one,
        div_eq_mul_inv]
      norm_cast
    rw [hvalue]
    apply rounded_div

/-! ### Decimals with few digits -/

/-- Natural numbers below `2 ^ 53` have a mantissa and an exponent. -/
theorem exists_legal_of_lt {n : ℕ} (hpos : 0 < n) (hlt : n < 2 ^ 53) :
  ∃ m q, Legal m q ∧ (m * 2 ^ q : ℚ) = n
  := by
  have hlog : n.log2 ≤ 52 := Nat.lt_succ_iff.mp ((Nat.log2_lt hpos.ne').mpr hlt)
  obtain ⟨k, hk⟩ : ∃ k, n.log2 + k = 52 := ⟨52 - n.log2, by omega⟩
  have hge : 2 ^ 52 ≤ n * 2 ^ k := calc
    2 ^ 52 = 2 ^ n.log2 * 2 ^ k := by rw [← pow_add, hk]
    _ ≤ n * 2 ^ k := Nat.mul_le_mul_right _ (Nat.log2_self_le hpos.ne')
  have hlt : n * 2 ^ k < 2 ^ 53 := calc
    n * 2 ^ k < 2 ^ (n.log2 + 1) * 2 ^ k :=
        Nat.mul_lt_mul_of_pos_right Nat.lt_log2_self (Nat.pow_pos two_pos)
    _ = 2 ^ 53 := by rw [← pow_add, add_right_comm, hk]
  refine ⟨n * 2 ^ k, -k, ⟨by omega, hlt, by omega, by omega, fun _ => hge⟩, ?_⟩
  rw [zpow_neg, zpow_natCast]
  push_cast
  rw [mul_inv_cancel_right₀ (by positivity)]

/-- Natural numbers below `2 ^ 53` are doubles. -/
theorem value?_toFloat {n : ℕ} (hpos : 0 < n) (hlt : n < 2 ^ 53) :
  value? n.toUInt64.toFloat = some (n : ℚ)
  := by
  obtain ⟨m, q, hlegal, hvalue⟩ := exists_legal_of_lt hpos hlt
  have hround : UnpackedFloat.ofUInt64 .binary64 n.toUInt64 = .finite .positive m q hlegal.pos := by
    have hcompare : compare (n : ℤ) 0 = .gt := Int.compare_eq_gt.mpr (by omega)
    have hnat : n.toUInt64.toNat = n := Nat.mod_eq_of_lt (by omega)
    have hrounded : Rounded n (UnpackedFloat.round .binary64 .positive n 0) := by
      simpa using rounded_round (e := 0) hpos
    rw [UnpackedFloat.ofUInt64, hnat, UnpackedFloat.ofNat, UnpackedFloat.ofInt,
      UnpackedFloat.normalize, hcompare]
    exact hrounded.eq_finite (hvalue ▸ reads_self m q) hlegal
  change unpackedValue? (Float.Model.pack (UnpackedFloat.ofUInt64 .binary64 n.toUInt64)).unpack = _
  rw [hround, unpack_pack hlegal, ← hvalue]
  rfl

/-- The powers of ten with small exponents are doubles. -/
theorem value?_powersOfTen (e : Fin 23) :
  value? Float.exactlyRepresentablePowersOfTen[e] = some (10 ^ e.val)
  := by
  revert e
  decide +kernel

/-- A number that is at least one has a mantissa of all 53 bits. -/
theorem Legal.le_mantissa {m : ℕ} {q : ℤ} (h : Legal m q) (hle : (1 : ℚ) ≤ m * 2 ^ q) :
  2 ^ 52 ≤ m
  := by
  by_contra hm
  have hq : q = -1074 := by
    have := h.le_exponent
    by_contra hne
    exact hm (h.normal (by omega))
  have hlt : (m : ℚ) < 2 ^ 52 := by exact_mod_cast not_le.mp hm
  have : (m * 2 ^ q : ℚ) < 1 := calc
    (m * 2 ^ q : ℚ) < 2 ^ 52 * 2 ^ (-52 : ℤ) := by
      rw [hq]
      gcongr
      · exact one_lt_two
      · decide
    _ = 1 := by norm_num
  linarith

/-- A product or quotient of doubles is the double that the exact result reads as. -/
theorem unpack_of_rounded {x : Float} {u : UnpackedFloat} {m : ℕ} {q : ℤ} {v : ℚ}
    (hx : x.toModel = Float.Model.pack u) (hu : Rounded v u) (hreads : Reads m q v)
    (hlegal : Legal m q) :
  x.toModel.unpack = .finite .positive m q hlegal.pos
  := by
  rw [hx, hu.eq_finite hreads hlegal, unpack_pack hlegal]

/-- Digits and a power that are doubles are divided or multiplied as such. -/
theorem unpack_ofScientific_of_few {n : ℕ} {e : ℤ} {m : ℕ} {q : ℤ} (hn : 0 < n)
    (hfew : n < 2 ^ 53 ∧ e.natAbs ≤ 22) (hreads : Reads m q (n * 10 ^ e)) (hlegal : Legal m q) :
  (Float.ofScientific n (e < 0) e.natAbs).toModel.unpack = .finite .positive m q hlegal.pos
  := by
  obtain ⟨m₁, q₁, h₁, hunpack₁, hvalue₁⟩ :=
    exists_unpack_of_pos (value?_toFloat hn hfew.1) (by exact_mod_cast hn)
  obtain ⟨m₂, q₂, h₂, hunpack₂, hvalue₂⟩ :=
    exists_unpack_of_pos (value?_powersOfTen ⟨e.natAbs, by omega⟩) (by positivity)
  rw [Float.ofScientific, dif_pos hfew]
  cases e with
  | ofNat k =>
      have hproduct : (m₁ * 2 ^ q₁ * (m₂ * 2 ^ q₂) : ℚ) = n * 10 ^ (Int.ofNat k) := by
        rw [hvalue₁, hvalue₂]
        rfl
      have hone₁ : 2 ^ 52 ≤ m₁ := h₁.le_mantissa (by rw [hvalue₁]; exact_mod_cast hn)
      have hdigits : 52 ≤ (m₁ * m₂).log2 := by
        rw [Nat.le_log2 (Nat.mul_pos h₁.pos h₂.pos).ne']
        exact hone₁.trans (Nat.le_mul_of_pos_right _ h₂.pos)
      exact unpack_of_rounded
        (congrArg₂ (fun u v => Float.Model.pack (UnpackedFloat.mul .binary64 u v)) hunpack₁ hunpack₂)
        (hproduct ▸ rounded_mul h₁.pos h₂.pos hdigits) hreads hlegal
  | negSucc k =>
      have hquotient : (m₁ * 2 ^ q₁ / (m₂ * 2 ^ q₂) : ℚ) = n * 10 ^ (Int.negSucc k) := by
        rw [hvalue₁, hvalue₂, zpow_negSucc]
        rfl
      rw [decide_eq_true (Int.negSucc_lt_zero k)]
      exact unpack_of_rounded
        (congrArg₂ (fun u v => Float.Model.pack (UnpackedFloat.div .binary64 u v)) hunpack₁ hunpack₂)
        (hquotient ▸ rounded_div h₁.pos h₂.pos) hreads hlegal

/-- The double of digits and an exponent is the one that the number they denote reads as. -/
theorem unpack_ofScientific {n : ℕ} {e : ℤ} {m : ℕ} {q : ℤ} (hn : 0 < n) (hle : e ≤ 2048)
    (hge : -(2048 + n.log2 : ℤ) ≤ e) (hreads : Reads m q (n * 10 ^ e)) (hlegal : Legal m q) :
  (Float.ofScientific n (e < 0) e.natAbs).toModel.unpack = .finite .positive m q hlegal.pos
  := by
  by_cases hfew : n < 2 ^ 53 ∧ e.natAbs ≤ 22
  · exact unpack_ofScientific_of_few hn hfew hreads hlegal
  · rw [Float.ofScientific, dif_neg hfew]
    have hrounded := rounded_ofScientific hn hle hge
    cases e with
    | ofNat k => exact unpack_of_rounded rfl hrounded hreads hlegal
    | negSucc k =>
        rw [decide_eq_true (Int.negSucc_lt_zero k)]
        exact unpack_of_rounded rfl hrounded hreads hlegal

/-- The double of a decimal is the one that the number it denotes reads as. -/
theorem Decimal.toFloat_unpack {d : Decimal} {m : ℕ} {q : ℤ} (hzero : d.digits ≠ 0)
    (hdigits : d.digits.log2 < 8000) (hreads : Reads m q d.value) (hlegal : Legal m q) :
  d.toFloat.toModel.unpack = .finite .positive m q hlegal.pos
  := by
  obtain ⟨hlo, hhi⟩ := hreads.range hlegal
  obtain ⟨heq, hge, hle⟩ := toFloat_of_range hzero hdigits hlo hhi
  rw [heq]
  exact unpack_ofScientific (Nat.pos_of_ne_zero hzero) (by omega) (by omega) hreads hlegal

end Prune.Number
