import Prune.Proofs.Number.Decimals

/-!
# Shortest decimals

The comparisons between decimals and doubles are those of the numbers they denote (`decimalLe_iff`,
`binaryLe_iff`), and so a decimal that is found in the interval of a double reads as that double
(`reads_of_readsAs`).  The search for the shortest decimal succeeds, because seventeen digits are
closer together than the doubles (`exists_withDigits`): what it finds reads as the double
(`reads_shortest`).
-/

namespace Prune.Number

/-! ### Comparisons -/

theorem zpow_eq_div {a : ℕ} (ha : 0 < a) (p : ℤ) :
  (a : ℚ) ^ p = (Nat.pow a p.toNat : ℕ) / (Nat.pow a (-p).toNat : ℕ)
  := by
  have hne : (a : ℚ) ≠ 0 := by exact_mod_cast ha.ne'
  obtain ⟨n, rfl | rfl⟩ := p.eq_nat_or_neg
  · have hzero : (-(n : ℤ)).toNat = 0 := by omega
    rw [hzero, Int.toNat_natCast, zpow_natCast]
    simp
  · have hzero : (-(n : ℤ)).toNat = 0 := by omega
    rw [hzero, neg_neg, Int.toNat_natCast, zpow_neg, zpow_natCast]
    simp

theorem two_zpow_eq_div (p : ℤ) :
  (2 : ℚ) ^ p = (twoTo p.toNat : ℕ) / (twoTo (-p).toNat : ℕ)
  := zpow_eq_div two_pos p

theorem ten_zpow_eq_div (p : ℤ) :
  (10 : ℚ) ^ p = (tenTo p.toNat : ℕ) / (tenTo (-p).toNat : ℕ)
  := zpow_eq_div (a := 10) (by decide) p

theorem twoTo_pos (n : ℕ) :
  (0 : ℚ) < (twoTo n : ℕ)
  := by exact_mod_cast Nat.pow_pos two_pos

theorem tenTo_pos (n : ℕ) :
  (0 : ℚ) < (tenTo n : ℕ)
  := by exact_mod_cast Nat.pow_pos (by decide)

theorem decimalLe_iff {c : ℕ} {e : ℤ} {x : ℕ} {p : ℤ} :
  decimalLe c e x p = true ↔ (c * 10 ^ e : ℚ) ≤ x * 2 ^ p
  := by
  rw [decimalLe, decide_eq_true_iff, two_zpow_eq_div, ten_zpow_eq_div, ← mul_div_assoc,
    ← mul_div_assoc, div_le_div_iff₀ (tenTo_pos _) (twoTo_pos _)]
  norm_cast

theorem binaryLe_iff {c : ℕ} {e : ℤ} {x : ℕ} {p : ℤ} :
  binaryLe x p c e = true ↔ (x * 2 ^ p : ℚ) ≤ c * 10 ^ e
  := by
  rw [binaryLe, decide_eq_true_iff, two_zpow_eq_div, ten_zpow_eq_div, ← mul_div_assoc,
    ← mul_div_assoc, div_le_div_iff₀ (twoTo_pos _) (tenTo_pos _)]
  norm_cast

/-! ### The interval of a double -/

/-- The lower end of the interval of a double, in units of its last digit: half a unit below, or a
quarter where the doubles below are twice as dense. -/
def lowerEnd (m : ℕ) (q : ℤ) : ℚ :=
  if m = 2 ^ 52 ∧ -1074 < q then m - 1 / 4 else m - 1 / 2

theorem readingInterval_fst {m : ℕ} (hm : 0 < m) (q : ℤ) :
  ((readingInterval m q).1 : ℚ) = 4 * lowerEnd m q
  := by
  have hcond : (m == twoTo 52 && decide (-1074 < q)) = true ↔ m = 2 ^ 52 ∧ -1074 < q := by
    rw [Bool.and_eq_true, beq_iff_eq, decide_eq_true_iff]
    rfl
  rw [readingInterval, lowerEnd]
  by_cases h : m = 2 ^ 52 ∧ -1074 < q
  · rw [if_pos h, if_pos (hcond.mpr h), Nat.cast_sub (by omega)]
    push_cast
    ring
  · rw [if_neg h, if_neg (mt hcond.mp h), Nat.cast_sub (by omega)]
    push_cast
    ring

theorem readingInterval_snd (m : ℕ) (q : ℤ) :
  ((readingInterval m q).2 : ℚ) = 4 * (m + 1 / 2)
  := by
  rw [readingInterval]
  push_cast
  ring

theorem quarters_mul (x : ℚ) (q : ℤ) :
  4 * x * 2 ^ (q - 2) = x * 2 ^ q
  := by
  rw [zpow_sub₀ two_ne_zero]
  ring

/-- The interval of a double has its ends if the mantissa is even. -/
theorem readsAs_iff {m : ℕ} {q : ℤ} {c : ℕ} {e : ℤ} (hm : 0 < m) :
  readsAs m q c e = true ↔
    if m % 2 = 0 then lowerEnd m q ≤ c * 10 ^ e / 2 ^ q ∧ c * 10 ^ e / 2 ^ q ≤ (m + 1 / 2 : ℚ)
    else lowerEnd m q < c * 10 ^ e / 2 ^ q ∧ c * 10 ^ e / 2 ^ q < (m + 1 / 2 : ℚ)
  := by
  have hpos : (0 : ℚ) < 2 ^ q := by positivity
  have hlo := readingInterval_fst hm q
  have hhi := readingInterval_snd m q
  rw [readsAs]
  generalize readingInterval m q = interval at hlo hhi ⊢
  obtain ⟨lo, hi⟩ := interval
  dsimp only at hlo hhi ⊢
  by_cases heven : m % 2 = 0
  · rw [if_pos (beq_iff_eq.mpr heven), if_pos heven, Bool.and_eq_true, binaryLe_iff, decimalLe_iff,
      hlo, hhi, quarters_mul, quarters_mul, le_div_iff₀ hpos, div_le_iff₀ hpos]
  · rw [if_neg (mt beq_iff_eq.mp heven), if_neg heven, Bool.and_eq_true, Bool.not_eq_true',
      Bool.not_eq_true', ← Bool.not_eq_true, ← Bool.not_eq_true, binaryLe_iff, decimalLe_iff,
      not_le, not_le, hlo, hhi, quarters_mul, quarters_mul, lt_div_iff₀ hpos, div_lt_iff₀ hpos]

/-- A decimal in the interval of a double reads as that double. -/
theorem reads_of_readsAs {m : ℕ} {q : ℤ} {c : ℕ} {e : ℤ} (hm : 0 < m)
    (h : readsAs m q c e = true) :
  Reads m q (c * 10 ^ e)
  := by
  rw [readsAs_iff hm] at h
  set v : ℚ := c * 10 ^ e
  have hlower : (m - 1 / 2 : ℚ) ≤ lowerEnd m q := by
    rw [lowerEnd]
    split_ifs <;> linarith
  constructor
  · unfold Near
    split_ifs at h ⊢
    · exact ⟨hlower.trans h.1, h.2⟩
    · exact ⟨hlower.trans_lt h.1, h.2⟩
  · rintro rfl hq hv
    rw [if_pos (by decide), lowerEnd, if_pos ⟨rfl, hq⟩] at h
    have hhalf : v / 2 ^ (q - 1) = 2 * (v / 2 ^ q) := by
      rw [zpow_sub_one₀ two_ne_zero]
      field_simp
    have hlt : v / 2 ^ q < 2 ^ 52 := by
      rw [div_lt_iff₀ (by positivity)]
      exact hv
    rw [Near, if_pos (by decide), hhalf]
    push_cast at h ⊢
    constructor <;> linarith

/-- A decimal that is less than half a unit away is in the interval of a double, if it is not below
a double whose neighbour below is nearer. -/
theorem readsAs_of_near {m : ℕ} {q : ℤ} {c : ℕ} {e : ℤ} (hm : 0 < m)
    (hlo : (m - 1 / 2 : ℚ) < c * 10 ^ e / 2 ^ q) (hhi : c * 10 ^ e / 2 ^ q < (m + 1 / 2 : ℚ))
    (hdense : m = 2 ^ 52 → (m : ℚ) ≤ c * 10 ^ e / 2 ^ q) :
  readsAs m q c e = true
  := by
  have hlower : lowerEnd m q < c * 10 ^ e / 2 ^ q := by
    rw [lowerEnd]
    split_ifs with h
    · have := hdense h.1
      linarith
    · exact hlo
  rw [readsAs_iff hm]
  split_ifs
  · exact ⟨hlower.le, hhi.le⟩
  · exact ⟨hlower, hhi⟩

/-! ### The search -/

/-- The power of ten that the magnitude gives is not above the double, and not far below the least
one. -/
theorem decimalMagnitude_le {m : ℕ} {q : ℤ} (h : Legal m q) :
  (10 : ℚ) ^ decimalMagnitude m q ≤ m * 2 ^ q ∧ -330 ≤ decimalMagnitude m q
  := by
  have hlog : m.log2 < 53 := (Nat.log2_lt h.pos.ne').mpr h.lt
  have hq := h.le_exponent
  have hq' := h.exponent_le
  have hm : (2 : ℚ) ^ (m.log2 + q) ≤ m * 2 ^ q := by
    rw [zpow_add₀ two_ne_zero, zpow_natCast]
    gcongr
    exact_mod_cast Nat.log2_self_le h.pos.ne'
  rw [decimalMagnitude, Int.fdiv_eq_ediv_of_nonneg _ (by decide)]
  split_ifs with hnext hguess
  · rw [decimalLe_iff, Nat.cast_one, one_mul] at hnext
    exact ⟨hnext, by omega⟩
  · rw [decimalLe_iff, Nat.cast_one, one_mul] at hguess
    exact ⟨hguess, by omega⟩
  · refine ⟨le_trans ?_ hm, by omega⟩
    apply ten_zpow_le_two_zpow <;> omega

/-- The two decimals that the search tries are those next to the double. -/
theorem below_eq_floor (m : ℕ) (q e : ℤ) :
  (m * twoTo q.toNat * tenTo (-e).toNat) / (twoTo (-q).toNat * tenTo e.toNat)
    = ⌊(m * 2 ^ q / 10 ^ e : ℚ)⌋₊
  := by
  have htwo := (twoTo_pos (-q).toNat).ne'
  have hten := (tenTo_pos e.toNat).ne'
  have hten' := (tenTo_pos (-e).toNat).ne'
  rw [← Nat.floor_div_eq_div (K := ℚ), two_zpow_eq_div, ten_zpow_eq_div, Nat.cast_mul, Nat.cast_mul,
    Nat.cast_mul]
  congr 1
  field_simp

theorem readsAs_of_withDigits {m : ℕ} {q k : ℤ} {n : ℕ} {d : Decimal}
    (h : withDigits m q k n = some d) :
  readsAs m q d.digits d.exponent = true ∧ d.exponent = k - n + 1
  := by
  rw [withDigits] at h
  split at h
  · split_ifs at h <;> obtain rfl := Option.some.inj h <;> exact ⟨‹_›, rfl⟩
  · obtain rfl := Option.some.inj h
    exact ⟨‹_›, rfl⟩
  · obtain rfl := Option.some.inj h
    exact ⟨‹_›, rfl⟩
  · cases h

theorem withDigits_ne_none {m : ℕ} {q k e : ℤ} {n : ℕ} (he : e = k - n + 1)
    (h : readsAs m q ⌊(m * 2 ^ q / 10 ^ e : ℚ)⌋₊ e = true
      ∨ readsAs m q (⌊(m * 2 ^ q / 10 ^ e : ℚ)⌋₊ + 1) e = true) :
  withDigits m q k n ≠ none
  := by
  subst he
  rw [← below_eq_floor] at h
  rw [withDigits]
  split <;> simp_all

/-- The decimals next to a double, in units of its last digit, are below and above its mantissa. -/
theorem floor_mul_le (m : ℕ) (q e : ℤ) :
  (⌊(m * 2 ^ q / 10 ^ e : ℚ)⌋₊ * (10 ^ e / 2 ^ q) : ℚ) ≤ m
    ∧ (m : ℚ) < (⌊(m * 2 ^ q / 10 ^ e : ℚ)⌋₊ + 1) * (10 ^ e / 2 ^ q)
  := by
  have hten : (0 : ℚ) < 10 ^ e := by positivity
  have htwo : (0 : ℚ) < 2 ^ q := by positivity
  have hle := Nat.floor_le (show (0 : ℚ) ≤ m * 2 ^ q / 10 ^ e by positivity)
  have hlt := Nat.lt_floor_add_one (m * 2 ^ q / 10 ^ e : ℚ)
  rw [le_div_iff₀ hten] at hle
  rw [div_lt_iff₀ hten] at hlt
  constructor
  · rwa [← mul_div_assoc, div_le_iff₀ htwo]
  · rwa [← mul_div_assoc, lt_div_iff₀ htwo]

/-- The decimals with seventeen digits are closer together than doubles. -/
theorem step_mul_le {m : ℕ} {q : ℤ} (h : Legal m q) :
  (10 ^ (decimalMagnitude m q - 16) / 2 ^ q * 10 ^ 16 : ℚ) ≤ m
  := by
  rw [div_mul_eq_mul_div, div_le_iff₀ (by positivity), zpow_sub₀ (by norm_num)]
  refine le_trans (le_of_eq ?_) (decimalMagnitude_le h).1
  norm_num

/-- Seventeen digits are enough. -/
theorem exists_withDigits {m : ℕ} {q : ℤ} (h : Legal m q) :
  withDigits m q (decimalMagnitude m q) 17 ≠ none
  := by
  have hsmall := step_mul_le h
  set e := decimalMagnitude m q - 16
  obtain ⟨hle, hlt⟩ := floor_mul_le m q e
  apply withDigits_ne_none (e := e) (by omega)
  set below := ⌊(m * 2 ^ q / 10 ^ e : ℚ)⌋₊
  set step : ℚ := 10 ^ e / 2 ^ q with hstep
  have hm : (m : ℚ) < 2 ^ 53 := by exact_mod_cast h.lt
  have hvalue (c : ℕ) : (c * 10 ^ e / 2 ^ q : ℚ) = c * step := by rw [hstep, mul_div_assoc]
  -- The decimal below is taken if it is near enough, unless the doubles below are nearer.
  by_cases hnear : m ≠ 2 ^ 52 ∧ (m - 1 / 2 : ℚ) < below * step
  · left
    apply readsAs_of_near h.pos
    · rw [hvalue]
      exact hnear.2
    · rw [hvalue]
      linarith
    · intro heq
      exact absurd heq hnear.1
  · right
    have hnext : (below + 1) * step < (m + 1 / 2 : ℚ) := by
      by_cases heq : m = 2 ^ 52
      · have hm : (m : ℚ) = 2 ^ 52 := by exact_mod_cast heq
        linarith
      · have := not_lt.mp (not_and.mp hnear heq)
        linarith
    apply readsAs_of_near h.pos <;> rw [hvalue] <;> push_cast
    · linarith
    · exact hnext
    · intro _
      exact hlt.le

/-- The shortest decimal of a double reads as the double. -/
theorem reads_shortest {m : ℕ} {q : ℤ} (h : Legal m q) :
  Reads m q (shortest m q).value ∧ -346 ≤ (shortest m q).exponent
  := by
  obtain ⟨-, hmagnitude⟩ := decimalMagnitude_le h
  cases hfound : (List.range 17).findSome? fun n => withDigits m q (decimalMagnitude m q) (n + 1) with
  | none =>
      exact absurd (List.findSome?_eq_none_iff.mp hfound 16 (by decide)) (exists_withDigits h)
  | some d =>
      obtain ⟨n, hn, hd⟩ := List.exists_of_findSome?_eq_some hfound
      obtain ⟨hreads, hexponent⟩ := readsAs_of_withDigits hd
      have hshortest : shortest m q = d := by rw [shortest, hfound, Option.getD_some]
      rw [List.mem_range] at hn
      rw [hshortest]
      exact ⟨reads_of_readsAs h.pos hreads, by omega⟩

end Prune.Number
