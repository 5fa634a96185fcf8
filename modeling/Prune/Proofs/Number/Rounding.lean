import Prune.Proofs.Number.Doubles

/-!
# Rounding

Operations on doubles keep of an exact result the digits that a mantissa has room for, and of the
others how they compare with one half (`Represents`).  Rounding gives the double that a number reads
as: the one whose mantissa is nearest to it, of two the even one (`Reads`, `Rounded.eq_finite`).
Products and quotients are rounded exact results (`rounded_mul`, `rounded_div`), and so are the
doubles of natural numbers (`rounded_round`).
-/

namespace Prune.Number

open Float.Model (UnpackedFloat Format)
open Float.Model.UnpackedFloat (Sign Accuracy ExtendedMantissa)

/-! ### Extended mantissas -/

/-- `Represents em r` says that an extended mantissa stands for `r`: its mantissa is the integral
part, and its two bits say how the fraction compares with zero and one half. -/
def Represents (em : ExtendedMantissa) (r : ℚ) : Prop :=
  match em.roundBit, em.stickyBit with
  | false, false => r = em.mantissa
  | false, true => em.mantissa < r ∧ r < em.mantissa + 1 / 2
  | true, false => r = em.mantissa + 1 / 2
  | true, true => em.mantissa + 1 / 2 < r ∧ r < em.mantissa + 1

/-- `Near m r` says that `m` is the integer nearest to `r`, of two the even one. -/
def Near (m : ℕ) (r : ℚ) : Prop :=
  if m % 2 = 0 then m - 1 / 2 ≤ r ∧ r ≤ m + 1 / 2 else m - 1 / 2 < r ∧ r < m + 1 / 2

theorem Near.bounds {m : ℕ} {r : ℚ} (h : Near m r) :
  m - 1 / 2 ≤ r ∧ r ≤ m + 1 / 2
  := by
  unfold Near at h
  split_ifs at h
  · exact h
  · exact ⟨h.1.le, h.2.le⟩

theorem near_self (m : ℕ) :
  Near m m
  := by
  unfold Near
  split_ifs <;> constructor <;> linarith

theorem Represents.bounds {em : ExtendedMantissa} {r : ℚ} (h : Represents em r) :
  em.mantissa ≤ r ∧ r < em.mantissa + 1
  := by
  obtain ⟨m, roundBit, stickyBit⟩ := em
  cases roundBit <;> cases stickyBit <;> simp only [Represents] at h ⊢ <;> constructor <;> linarith

/-- The rounded mantissa is the nearest integer. -/
theorem Represents.roundedMantissa_eq {em : ExtendedMantissa} {r : ℚ} {m : ℕ}
    (h : Represents em r) (hnear : Near m r) :
  em.roundedMantissa = m
  := by
  obtain ⟨k, roundBit, stickyBit⟩ := em
  obtain ⟨hlo, hhi⟩ := hnear.bounds
  cases roundBit with
  | false =>
      -- Below one half the mantissa stays as it is.
      have hk : (k : ℚ) ≤ r ∧ r < k + 1 / 2 := by
        cases stickyBit <;> simp only [Represents] at h <;> constructor <;> linarith
      have hle : (m : ℚ) < k + 1 := by linarith
      have hge : (k : ℚ) < m + 1 := by linarith
      norm_cast at hle hge
      cases stickyBit <;>
        · change k = m
          omega
  | true =>
      cases stickyBit with
      | false =>
          obtain rfl : r = k + 1 / 2 := h
          unfold Near at hnear
          change k + k % 2 = m
          split_ifs at hnear with heven
          · have hle : (m : ℚ) ≤ k + 1 := by linarith
            have hge : (k : ℚ) ≤ m := by linarith
            norm_cast at hle hge
            omega
          · have hle : (m : ℚ) < k + 1 := by linarith
            have hge : (k : ℚ) < m := by linarith
            norm_cast at hle hge
            omega
      | true =>
          have hk : (k : ℚ) + 1 / 2 < r ∧ r < k + 1 := h
          have hle : (m : ℚ) < k + 2 := by linarith
          have hge : (k : ℚ) < m := by linarith
          norm_cast at hle hge
          change k + 1 = m
          omega

theorem Represents.shiftRightOne {em : ExtendedMantissa} {r : ℚ} (h : Represents em r) :
  Represents em.shiftRightOne (r / 2)
  := by
  obtain ⟨m, roundBit, stickyBit⟩ := em
  obtain ⟨k, rfl | rfl⟩ : ∃ k, m = 2 * k ∨ m = 2 * k + 1 := ⟨m / 2, by omega⟩
  · have hhalf : 2 * k / 2 = k := by omega
    have hbit : (2 * k % 2 != 0) = false := by simp
    cases roundBit <;> cases stickyBit <;>
      simp only [Represents, ExtendedMantissa.shiftRightOne, hhalf, hbit, Bool.or_false, Bool.or_true,
        Nat.cast_mul, Nat.cast_ofNat] at h ⊢ <;>
      first | linarith | (constructor <;> linarith)
  · have hhalf : (2 * k + 1) / 2 = k := by omega
    have hbit : ((2 * k + 1) % 2 != 0) = true := by simp
    cases roundBit <;> cases stickyBit <;>
      simp only [Represents, ExtendedMantissa.shiftRightOne, hhalf, hbit, Bool.or_false, Bool.or_true,
        Nat.cast_add, Nat.cast_mul, Nat.cast_ofNat, Nat.cast_one] at h ⊢ <;>
      first | linarith | (constructor <;> linarith)

/-- Shifted to the right, an extended mantissa stands for the number divided by a power of two. -/
theorem Represents.shiftRight {em : ExtendedMantissa} {r : ℚ} (h : Represents em r) (n : ℕ) :
  Represents (em >>> n) (r / 2 ^ n)
  := by
  change Represents (Nat.repeat ExtendedMantissa.shiftRightOne n em) _
  induction n with
  | zero => simpa [Nat.repeat] using h
  | succ n ih =>
      rw [Nat.repeat, pow_succ, ← div_div]
      exact ih.shiftRightOne

theorem represents_exact (m : ℕ) :
  Represents (.ofMantissaAndAccuracy m .exact) m
  := rfl

/-- The accuracy of a quotient is that of the fraction that the remainder leaves. -/
theorem represents_div (m n : ℕ) (h : 0 < n) :
  Represents (.ofMantissaAndAccuracy (m / n) (UnpackedFloat.accuracyOfFraction (m % n) n)) (m / n)
  := by
  have hn : (0 : ℚ) < n := by exact_mod_cast h
  have hlt : ((m % n : ℕ) : ℚ) < n := by exact_mod_cast Nat.mod_lt m h
  have hquotient : (m / n : ℚ) = (m / n : ℕ) + (m % n : ℕ) / (n : ℚ) := by
    have hdiv : (m : ℚ) = n * (m / n : ℕ) + (m % n : ℕ) := by exact_mod_cast (Nat.div_add_mod m n).symm
    field_simp
    linarith
  rw [hquotient, UnpackedFloat.accuracyOfFraction]
  split_ifs with hzero
  · rw [hzero]
    simp [Represents, ExtendedMantissa.ofMantissaAndAccuracy]
  · have hpos : (0 : ℚ) < (m % n : ℕ) := by exact_mod_cast Nat.pos_of_ne_zero hzero
    have hfraction : (0 : ℚ) < (m % n : ℕ) / (n : ℚ) := div_pos hpos hn
    cases horder : compare (2 * (m % n)) n with
    | lt =>
        have hhalf : 2 * ((m % n : ℕ) : ℚ) < n := by
          exact_mod_cast Nat.compare_eq_lt.mp horder
        have hlt : (m % n : ℕ) / (n : ℚ) < 1 / 2 := by
          rw [div_lt_div_iff₀ hn two_pos]
          linarith
        constructor <;> simp only [ExtendedMantissa.ofMantissaAndAccuracy] <;> linarith
    | eq =>
        have hhalf : 2 * ((m % n : ℕ) : ℚ) = n := by
          exact_mod_cast Nat.compare_eq_eq.mp horder
        have heq : (m % n : ℕ) / (n : ℚ) = 1 / 2 := by
          rw [div_eq_div_iff hn.ne' two_ne_zero]
          linarith
        change _ = ((m / n : ℕ) : ℚ) + 1 / 2
        rw [heq]
    | gt =>
        have hhalf : (n : ℚ) < 2 * ((m % n : ℕ) : ℚ) := by
          exact_mod_cast Nat.compare_eq_gt.mp horder
        have hgt : 1 / 2 < (m % n : ℕ) / (n : ℚ) := by
          rw [div_lt_div_iff₀ two_pos hn]
          linarith
        have hone : (m % n : ℕ) / (n : ℚ) < 1 := by
          rw [div_lt_one hn]
          exact hlt
        constructor <;> simp only [ExtendedMantissa.ofMantissaAndAccuracy] <;> linarith

/-! ### The exponent of the result -/

/-- The exponent that a result has room for. -/
theorem targetExponent_eq (m : ℕ) (e : ℤ) :
  Format.binary64.targetExponent (Float.Model.totalExponent m e) = max (m.log2 + e - 52) (-1074)
  := by
  change max ((m.log2 : ℤ) + 1 + e - 53) (-1074) = _
  congr 1
  ring

/-- The first shift brings a mantissa to the exponent that the result has room for. -/
theorem represents_shift {m : ℕ} {e : ℤ} {accuracy : Accuracy} {r : ℚ}
    (h : Represents (.ofMantissaAndAccuracy m accuracy) r) (hm : 52 ≤ m.log2 ∨ e ≤ -1074) :
  ∃ em, UnpackedFloat.shiftToTargetExponent .binary64 m e accuracy
      = (em, max (m.log2 + e - 52) (-1074))
    ∧ Represents em (r * 2 ^ e / 2 ^ max (m.log2 + e - 52) (-1074 : ℤ))
  := by
  rw [UnpackedFloat.shiftToTargetExponent, targetExponent_eq]
  set t := max (m.log2 + e - 52) (-1074)
  obtain ⟨k, hk⟩ : ∃ k : ℕ, t = e + k := ⟨(t - e).toNat, by omega⟩
  have hshift : (t - e).toNat = k := by omega
  refine ⟨_, Prod.ext rfl ?_, ?_⟩
  · change e + ((t - e).toNat : ℤ) = t
    omega
  · have hscale : r * 2 ^ e / 2 ^ t = r / 2 ^ k := by
      rw [hk, zpow_add₀ two_ne_zero, zpow_natCast]
      field_simp
    rw [hscale, ← hshift]
    exact h.shiftRight _

/-- A mantissa below `2 ^ 53` stays as it is. -/
theorem shift_of_lt {m : ℕ} {q : ℤ} (hm : m < 2 ^ 53) (hq : -1074 ≤ q) :
  UnpackedFloat.shiftToTargetExponent .binary64 m q .exact = (⟨m, false, false⟩, q)
  := by
  have hlog : m.log2 ≤ 52 := by
    obtain rfl | hpos := Nat.eq_zero_or_pos m
    · decide
    · exact Nat.lt_succ_iff.mp ((Nat.log2_lt hpos.ne').mpr hm)
  rw [UnpackedFloat.shiftToTargetExponent, targetExponent_eq, UnpackedFloat.shiftToExponent]
  have hzero : (max (m.log2 + q - 52) (-1074) - q).toNat = 0 := by omega
  rw [hzero]
  exact Prod.ext rfl (add_zero q)

/-- The mantissa `2 ^ 53` gets the next exponent. -/
theorem shift_two_pow_53 {q : ℤ} (hq : -1074 ≤ q) :
  UnpackedFloat.shiftToTargetExponent .binary64 (2 ^ 53) q .exact
    = (⟨2 ^ 52, false, false⟩, q + 1)
  := by
  rw [UnpackedFloat.shiftToTargetExponent, targetExponent_eq, UnpackedFloat.shiftToExponent,
    Nat.log2_two_pow]
  have hone : (max (((53 : ℕ) : ℤ) + q - 52) (-1074) - q).toNat = 1 := by omega
  rw [hone]
  rfl

/-! ### The double that a number reads as -/

/-- `Reads m q v` says that the positive number `v` reads as the double `m · 2 ^ q`: `m` is the
integer nearest to `v / 2 ^ q`.  Below the least mantissa of an exponent the doubles are twice as
dense, and there the number has to be as near to the double in terms of the smaller exponent. -/
structure Reads (m : ℕ) (q : ℤ) (v : ℚ) : Prop where
  near : Near m (v / 2 ^ q)
  near_below : m = 2 ^ 52 → -1074 < q → v < 2 ^ 52 * 2 ^ q → Near (2 ^ 53) (v / 2 ^ (q - 1))

/-- A double reads as itself. -/
theorem reads_self (m : ℕ) (q : ℤ) :
  Reads m q (m * 2 ^ q)
  := by
  constructor
  · rw [mul_div_cancel_right₀ _ (by positivity)]
    exact near_self m
  · rintro rfl - hlt
    norm_num at hlt

/-- The results of rounding a positive number that is known to at least as many digits as a mantissa
has. -/
inductive Rounded (v : ℚ) : UnpackedFloat → Prop
  | intro {m : ℕ} {e : ℤ} {accuracy : Accuracy} {r : ℚ}
      (represents : Represents (.ofMantissaAndAccuracy m accuracy) r) (value : r * 2 ^ e = v)
      (digits : 52 ≤ m.log2 ∨ e ≤ -1074) :
      Rounded v (UnpackedFloat.roundWithAccuracy .binary64 .positive m e accuracy)

/-- Rounding to a mantissa below `2 ^ 53` shifts once. -/
theorem roundWithAccuracy_of_lt {s : Sign} {m₀ m : ℕ} {e q : ℤ} {accuracy : Accuracy}
    {em : ExtendedMantissa}
    (hshift : UnpackedFloat.shiftToTargetExponent .binary64 m₀ e accuracy = (em, q))
    (hround : em.roundedMantissa = m) (hpos : 0 < m) (hm : m < 2 ^ 53) (hq : -1074 ≤ q) :
  UnpackedFloat.roundWithAccuracy .binary64 s m₀ e accuracy = .finite s m q hpos
  := by
  simp only [UnpackedFloat.roundWithAccuracy, hshift, hround, shift_of_lt hm hq]
  rw [dif_neg hpos.ne']

/-- Rounding up to `2 ^ 53` shifts a second time. -/
theorem roundWithAccuracy_two_pow_53 {s : Sign} {m₀ : ℕ} {e q : ℤ} {accuracy : Accuracy}
    {em : ExtendedMantissa}
    (hshift : UnpackedFloat.shiftToTargetExponent .binary64 m₀ e accuracy = (em, q))
    (hround : em.roundedMantissa = 2 ^ 53) (hq : -1074 ≤ q) :
  UnpackedFloat.roundWithAccuracy .binary64 s m₀ e accuracy
    = .finite s (2 ^ 52) (q + 1) (by decide)
  := by
  simp only [UnpackedFloat.roundWithAccuracy, hshift, hround, shift_two_pow_53 hq]
  rw [dif_neg (by decide)]

/-- The exponent that a result has room for is that of the double that it reads as, except just
below the least mantissa of an exponent, where it is the one before. -/
theorem Reads.target {m : ℕ} {q t : ℤ} {v : ℚ} (h : Reads m q v) (hlegal : Legal m q)
    (ht : -1074 ≤ t) (hlo : t ≤ -1074 ∨ 2 ^ (t + 52) ≤ v) (hhi : v < 2 ^ (t + 53)) :
  t = q ∨ t = q - 1 ∧ m = 2 ^ 52 ∧ Near (2 ^ 53) (v / 2 ^ t)
  := by
  obtain ⟨hnear, hnear'⟩ := h.near.bounds
  rw [le_div_iff₀ (by positivity)] at hnear
  rw [div_le_iff₀ (by positivity)] at hnear'
  have hq : (0 : ℚ) < 2 ^ q := by positivity
  have hm : (m : ℚ) ≤ 2 ^ 53 - 1 := by
    have := hlegal.lt
    rw [le_sub_iff_add_le]
    exact_mod_cast this
  -- The number is below `2 ^ (q + 53)`.
  have hle : t ≤ q := by
    by_contra hgt
    have hpow : (2 : ℚ) ^ (q + 53) ≤ 2 ^ (t + 52) := zpow_le_zpow_right₀ one_le_two (by omega)
    have hq53 : (2 : ℚ) ^ (q + 53) = 2 ^ q * 2 ^ 53 := by rw [zpow_add₀ two_ne_zero]; norm_cast
    have hmax := hlegal.le_exponent
    nlinarith [hlo.resolve_left (by omega)]
  obtain heq | hlt := hle.eq_or_lt
  · exact .inl heq
  · have hnormal : (2 : ℚ) ^ 52 ≤ m := by exact_mod_cast hlegal.normal (by omega)
    have hsplit : (2 : ℚ) ^ (t + 53) = 2 ^ (t - q + 1) * (2 ^ 52 * 2 ^ q) := by
      rw [← zpow_natCast, ← zpow_add₀ two_ne_zero, ← zpow_add₀ two_ne_zero]
      congr 1
      push_cast
      ring
    -- Two exponents less would leave it below half of the least mantissa.
    have hge : q - 1 ≤ t := by
      by_contra hgt
      have hpow : (2 : ℚ) ^ (t - q + 1) ≤ 2 ^ (-1 : ℤ) := zpow_le_zpow_right₀ one_le_two (by omega)
      rw [zpow_neg_one] at hpow
      nlinarith
    obtain rfl : t = q - 1 := by omega
    rw [show q - 1 - q + 1 = 0 by ring, zpow_zero, one_mul] at hsplit
    have hm52 : m = 2 ^ 52 := by
      have hmq : (m - 2 ^ 52 - 1 / 2 : ℚ) * 2 ^ q < 0 := by linarith
      have hlt : (m : ℚ) < 2 ^ 52 + 1 := by nlinarith
      norm_cast at hlt hnormal
      omega
    exact .inr ⟨rfl, hm52, h.near_below hm52 (by omega) (hsplit ▸ hhi)⟩

/-- The number that a mantissa and an exponent stand for is between two powers of two that the
exponent of the result gives. -/
theorem Represents.target_bounds {m : ℕ} {e : ℤ} {accuracy : Accuracy} {r : ℚ}
    (h : Represents (.ofMantissaAndAccuracy m accuracy) r) (hm : 52 ≤ m.log2 ∨ e ≤ -1074) :
  (max (m.log2 + e - 52) (-1074) ≤ (-1074 : ℤ)
      ∨ 2 ^ (max (m.log2 + e - 52) (-1074) + 52) ≤ r * 2 ^ e)
    ∧ r * 2 ^ e < 2 ^ (max (m.log2 + e - 52) (-1074) + 53)
  := by
  obtain ⟨hge, hlt⟩ := h.bounds
  have hmantissa : (ExtendedMantissa.ofMantissaAndAccuracy m accuracy).mantissa = m := by
    rcases accuracy with _ | (_ | _ | _) <;> rfl
  rw [hmantissa] at hge hlt
  constructor
  · by_cases hmax : m.log2 + e - 52 ≤ -1074
    · exact .inl (by omega)
    · right
      have hzero : m ≠ 0 := by
        rintro rfl
        rw [Nat.log2_zero] at hm hmax
        omega
      have hr : (2 : ℚ) ^ m.log2 ≤ r := le_trans (by exact_mod_cast Nat.log2_self_le hzero) hge
      calc (2 : ℚ) ^ (max (m.log2 + e - 52) (-1074) + 52) = 2 ^ (m.log2 + e : ℤ) := by
            congr 1
            omega
        _ = 2 ^ m.log2 * 2 ^ e := by rw [zpow_add₀ two_ne_zero]; norm_cast
        _ ≤ r * 2 ^ e := by gcongr
  · have hr : r < 2 ^ (m.log2 + 1) := hlt.trans_le (by exact_mod_cast Nat.lt_log2_self)
    calc r * 2 ^ e < 2 ^ (m.log2 + 1) * 2 ^ e := by gcongr
      _ = 2 ^ (m.log2 + 1 + e : ℤ) := by rw [zpow_add₀ two_ne_zero]; norm_cast
      _ ≤ _ := zpow_le_zpow_right₀ one_le_two (by omega)

/-- Rounding gives the double that a number reads as. -/
theorem Rounded.eq_finite {v : ℚ} {u : UnpackedFloat} {m : ℕ} {q : ℤ}
    (h : Rounded v u) (hreads : Reads m q v) (hlegal : Legal m q) :
  u = .finite .positive m q hlegal.pos
  := by
  obtain ⟨hrepresents, rfl, hdigits⟩ := h
  obtain ⟨em, hshift, hem⟩ := represents_shift hrepresents hdigits
  obtain ⟨hlo, hhi⟩ := hrepresents.target_bounds hdigits
  obtain heq | ⟨heq, rfl, hnear⟩ := hreads.target hlegal (le_max_right _ _) hlo hhi
  · rw [heq] at hshift hem
    exact roundWithAccuracy_of_lt hshift (hem.roundedMantissa_eq hreads.near) hlegal.pos hlegal.lt
      hlegal.le_exponent
  · rw [roundWithAccuracy_two_pow_53 hshift (hem.roundedMantissa_eq (by exact_mod_cast hnear))
      (le_max_right _ _)]
    congr 1
    omega

/-! ### Operations -/

/-- A product that has enough digits is a rounded result. -/
theorem rounded_mul {m₁ m₂ : ℕ} {e₁ e₂ : ℤ} (h₁ : 0 < m₁) (h₂ : 0 < m₂)
    (hdigits : 52 ≤ (m₁ * m₂).log2) :
  Rounded (m₁ * 2 ^ e₁ * (m₂ * 2 ^ e₂))
    (UnpackedFloat.mul .binary64 (.finite .positive m₁ e₁ h₁) (.finite .positive m₂ e₂ h₂))
  := by
  refine .intro (represents_exact (m₁ * m₂)) ?_ (.inl hdigits)
  rw [zpow_add₀ two_ne_zero]
  push_cast
  ring

/-- A quotient is a rounded result. -/
theorem rounded_div {m₁ m₂ : ℕ} {e₁ e₂ : ℤ} (h₁ : 0 < m₁) (h₂ : 0 < m₂) :
  Rounded (m₁ * 2 ^ e₁ / (m₂ * 2 ^ e₂))
    (UnpackedFloat.div .binary64 (.finite .positive m₁ e₁ h₁) (.finite .positive m₂ e₂ h₂))
  := by
  -- The dividend is shifted so far that the quotient has the digits of a mantissa.
  set t := min (e₁ - e₂) (Format.binary64.targetExponent
    (Float.Model.totalExponent m₁ e₁ - Float.Model.totalExponent m₂ e₂)) with ht
  have htarget : Format.binary64.targetExponent
      (Float.Model.totalExponent m₁ e₁ - Float.Model.totalExponent m₂ e₂)
      = max ((m₁.log2 + e₁) - (m₂.log2 + e₂) - 53) (-1074) := by
    change max (((m₁.log2 : ℤ) + 1 + e₁) - ((m₂.log2 : ℤ) + 1 + e₂) - 53) (-1074) = _
    congr 1
    ring
  obtain ⟨k, hk⟩ : ∃ k : ℕ, e₁ - e₂ = t + k := ⟨(e₁ - e₂ - t).toNat, by omega⟩
  have hshift : (e₁ - e₂ - t).toNat = k := by omega
  change Rounded _ (UnpackedFloat.roundWithAccuracy .binary64 .positive
    (m₁ <<< (e₁ - e₂ - t).toNat / m₂) t
    (UnpackedFloat.accuracyOfFraction (m₁ <<< (e₁ - e₂ - t).toNat % m₂) m₂))
  rw [hshift, Nat.shiftLeft_eq]
  refine .intro (represents_div (m₁ * 2 ^ k) m₂ h₂) ?_ ?_
  · have hm₂ : (m₂ : ℚ) ≠ 0 := by exact_mod_cast h₂.ne'
    have he : (2 : ℚ) ^ e₁ = 2 ^ e₂ * (2 ^ t * 2 ^ k) := by
      rw [← zpow_natCast, ← zpow_add₀ two_ne_zero, ← zpow_add₀ two_ne_zero, ← hk]
      congr 1
      ring
    rw [he]
    push_cast
    field_simp
  · by_cases hle : t ≤ -1074
    · exact .inr hle
    · left
      have hge : 2 ^ m₁.log2 ≤ m₁ := Nat.log2_self_le h₁.ne'
      have hlt : m₂ < 2 ^ (m₂.log2 + 1) := Nat.lt_log2_self
      have hquotient : 2 ^ 52 ≤ m₁ * 2 ^ k / m₂ := by
        rw [Nat.le_div_iff_mul_le h₂]
        calc 2 ^ 52 * m₂ ≤ 2 ^ 52 * 2 ^ (m₂.log2 + 1) := by gcongr
          _ = 2 ^ (52 + (m₂.log2 + 1)) := (pow_add 2 52 _).symm
          _ ≤ 2 ^ (m₁.log2 + k) := Nat.pow_le_pow_right two_pos (by omega)
          _ = 2 ^ m₁.log2 * 2 ^ k := by rw [pow_add]
          _ ≤ m₁ * 2 ^ k := by gcongr
      rw [Nat.le_log2 (by positivity)]
      exact hquotient

/-- A number in binary is a rounded result. -/
theorem rounded_round {m : ℕ} {e : ℤ} (h : 0 < m) :
  Rounded (m * 2 ^ e) (UnpackedFloat.round .binary64 .positive m e)
  := by
  set t := Format.binary64.targetExponent (Float.Model.totalExponent m e)
  have ht : t = max (m.log2 + e - 52) (-1074) := targetExponent_eq m e
  change Rounded _ (UnpackedFloat.roundWithAccuracy .binary64 .positive (m <<< (e - t).toNat)
    (e - (e - t).toNat) .exact)
  set k := (e - t).toNat with hk
  refine .intro (represents_exact _) ?_ ?_
  · rw [Nat.shiftLeft_eq, zpow_sub₀ two_ne_zero, zpow_natCast]
    push_cast
    field_simp
  · by_cases hle : t ≤ -1074
    · exact .inr (by omega)
    · left
      have hge : 2 ^ m.log2 ≤ m := Nat.log2_self_le h.ne'
      rw [Nat.shiftLeft_eq, Nat.le_log2 (by positivity)]
      calc 2 ^ 52 ≤ 2 ^ (m.log2 + k) := Nat.pow_le_pow_right two_pos (by omega)
        _ = 2 ^ m.log2 * 2 ^ k := by rw [pow_add]
        _ ≤ m * 2 ^ k := by gcongr

/-- Rounding keeps the sign. -/
theorem roundWithAccuracy_eq (s : Sign) (m : ℕ) (e : ℤ) (accuracy : Accuracy) :
  UnpackedFloat.roundWithAccuracy .binary64 s m e accuracy = .zero s
    ∨ ∃ m' e' h, UnpackedFloat.roundWithAccuracy .binary64 s m e accuracy = .finite s m' e' h
  := by
  simp only [UnpackedFloat.roundWithAccuracy]
  split_ifs with hzero
  · exact .inl rfl
  · exact .inr ⟨_, _, Nat.pos_of_ne_zero hzero, rfl⟩

/-- The double of a natural number is not negative. -/
theorem signOf_toFloat (n : UInt64) :
  signOf n.toFloat = .positive
  := by
  apply signOf_pack (u := UnpackedFloat.ofUInt64 .binary64 n)
  change UnpackedFloat.normalize .binary64 (n.toNat : ℤ) 0 .positive = _ ∨ _
  rw [UnpackedFloat.ofUInt64, UnpackedFloat.ofNat, UnpackedFloat.ofInt, UnpackedFloat.normalize]
  cases hcompare : compare (n.toNat : ℤ) 0 with
  | lt => exact absurd (Int.compare_eq_lt.mp hcompare) (by omega)
  | eq => exact .inl rfl
  | gt => exact roundWithAccuracy_eq _ _ _ _

end Prune.Number
