import Mathlib
import Prune.Number.Binary

/-!
# Doubles as numbers

The rational number that a finite double is (`value?`), and the number that a scaled integer denotes
(`Binary.value`); a finite double is what its scaled integer denotes (`value?_eq`).  The doubles other
than zeros are the numbers `m · 2 ^ q` for the mantissas and exponents that are `Legal`: they are
unpacked to their mantissa and exponent, and packed again (`legal_of_unpack`, `unpack_pack`).
-/

namespace Prune.Number

open Float.Model (UnpackedFloat Format)
open Float.Model.UnpackedFloat (Sign)

/-- The number that an unpacked double is, if it is finite. -/
def unpackedValue? : UnpackedFloat → Option ℚ
  | .zero _ => some 0
  | .finite s m e _ => some (s.apply m * 2 ^ e)
  | _ => none

/-- The number that a double is, if it is finite. -/
def value? (x : Float) : Option ℚ :=
  unpackedValue? x.toModel.unpack

/-- The number that a scaled integer denotes. -/
def Binary.value (b : Binary) : ℚ :=
  (if b.negative then -1 else 1) * (b.mantissa * 2 ^ b.exponent)

/-! ### The fields of a word -/

/-- The word of a double. -/
abbrev word (x : Float) : BitVec Format.binary64.numBits :=
  x.toModel.toBits.toBitVec

/-- The sign of a double. -/
def signOf (x : Float) : Sign :=
  if isNegative x then .negative else .positive

theorem exponentBits_eq (x : Float) :
  exponentBits x
    = (UnpackedFloat.unpackExponent (word x)).toNat
  := by
  rw [UnpackedFloat.unpackExponent_def, exponentBits]
  simp [BitVec.extractLsb'_toNat, Nat.shiftRight_eq_div_pow, Float.toBits]

theorem fractionBits_eq (x : Float) :
  fractionBits x
    = (UnpackedFloat.unpackMantissa (word x)).toNat
  := by
  rw [UnpackedFloat.unpackMantissa_def, fractionBits]
  simp [BitVec.extractLsb'_toNat, Float.toBits]

theorem signOf_eq (x : Float) :
  signOf x = Sign.ofBitVec (UnpackedFloat.unpackSign (word x))
  := by
  have hlt := x.toModel.toBits.toNat_lt
  have hbit : (UnpackedFloat.unpackSign (word x)).toNat
      = x.toModel.toBits.toNat / 2 ^ 63 := by
    rw [UnpackedFloat.unpackSign_def, BitVec.extractLsb'_toNat, UInt64.toNat_toBitVec,
      Nat.shiftRight_eq_div_pow]
    apply Nat.mod_eq_of_lt
    apply Nat.div_lt_of_lt_mul hlt
  by_cases h : 2 ^ 63 ≤ x.toModel.toBits.toNat
  · have hneg : isNegative x = true := decide_eq_true h
    have hone : UnpackedFloat.unpackSign (word x) = 1#1 := by
      rw [← BitVec.toNat_inj, hbit, BitVec.toNat_ofNat]
      omega
    rw [signOf, hneg, hone]
    rfl
  · have hneg : isNegative x = false := decide_eq_false h
    have hzero : UnpackedFloat.unpackSign (word x) = 0#1 := by
      rw [← BitVec.toNat_inj, hbit, BitVec.toNat_ofNat]
      omega
    rw [signOf, hneg, hzero]
    rfl

theorem exponentBits_lt (x : Float) :
  exponentBits x < 2048
  := Nat.mod_lt _ (by decide)

theorem fractionBits_lt (x : Float) :
  fractionBits x < 2 ^ 52
  := Nat.mod_lt _ (by decide)

/-- What the three fields of a word unpack to. -/
def ofFields (s : Sign) (exponent fraction : ℕ) : UnpackedFloat :=
  if exponent = 2047 then if fraction = 0 then .infinity s else .notANumber
  else if exponent = 0 then
    if h : fraction = 0 then .zero s else .finite s fraction (-1074) (Nat.pos_of_ne_zero h)
  else .finite s (fraction + 2 ^ 52) (exponent - 1075) (by positivity)

theorem unpack_eq_ofFields (b : BitVec Format.binary64.numBits) :
  UnpackedFloat.unpack .binary64 b
    = ofFields (Sign.ofBitVec (UnpackedFloat.unpackSign b)) (UnpackedFloat.unpackExponent b).toNat
        (UnpackedFloat.unpackMantissa b).toNat
  := by
  have hleading (m : BitVec 52) : (1#1 ++ m).toNat = m.toNat + 2 ^ 52 := by
    rw [BitVec.toNat_append, ← Nat.shiftLeft_add_eq_or_of_lt m.isLt, Nat.add_comm]
    rfl
  rw [UnpackedFloat.unpack, ofFields]
  simp only [← BitVec.toNat_inj, hleading]
  change (if _ = 2047 then if _ = 0 then _ else _
    else if _ = 0 then if h : _ = 0 then _ else _ else _) = _
  split_ifs with hmax hfraction hexponent hfraction
  · rfl
  · rfl
  · rfl
  · simp only [hexponent]
    rfl
  · rfl

/-- A double unpacks to what its fields say. -/
theorem unpack_eq (x : Float) :
  x.toModel.unpack = ofFields (signOf x) (exponentBits x) (fractionBits x)
  := by
  rw [exponentBits_eq, fractionBits_eq, signOf_eq]
  apply unpack_eq_ofFields

/-! ### Packing -/

/-- The mantissas and exponents of the finite doubles other than zeros. -/
structure Legal (m : ℕ) (q : ℤ) : Prop where
  pos : 0 < m
  lt : m < 2 ^ 53
  le_exponent : -1074 ≤ q
  exponent_le : q ≤ 971
  normal : -1074 < q → 2 ^ 52 ≤ m

theorem legal_of_unpack {x : Float} {s : Sign} {m : ℕ} {q : ℤ} {h : 0 < m}
    (hx : x.toModel.unpack = .finite s m q h) :
  Legal m q
  := by
  have hlt := fractionBits_lt x
  have hexponent := exponentBits_lt x
  rw [unpack_eq, ofFields] at hx
  split_ifs at hx with hmax hfraction hzero hfraction
  all_goals
    obtain ⟨-, rfl, rfl⟩ := UnpackedFloat.finite.inj hx
    constructor <;> omega

/-- The exponent field of a double. -/
def exponentField (m : ℕ) (q : ℤ) : ℕ :=
  if m < 2 ^ 52 then 0 else (q + 1075).toNat

theorem pack_finite {s : Sign} {m : ℕ} {q : ℤ} (h : Legal m q) :
  UnpackedFloat.pack .binary64 (.finite s m q h.pos)
    = UnpackedFloat.packComponents .binary64 s (BitVec.ofNat 11 (exponentField m q))
        (BitVec.ofNat 52 m)
  := by
  have hbiased : (q + (Format.binary64.exponentBias : ℤ) + ((52 : ℕ) : ℤ)).toNat
      = (q + 1075).toNat := by
    change (q + 1023 + 52).toNat = _
    rw [add_assoc]
    rfl
  have hbits : m.log2 + 1 = Format.binary64.mantissaBits ↔ 2 ^ 52 ≤ m := by
    change m.log2 + 1 = 53 ↔ _
    rw [Nat.add_right_cancel_iff (n := 1) (m := m.log2) (k := 52), Nat.log2_eq_iff h.pos.ne']
    exact and_iff_left h.lt
  have hle := h.le_exponent
  have hge := h.exponent_le
  rw [UnpackedFloat.pack.eq_def]
  simp only [hbiased]
  rw [if_neg (by change ¬ 2048 ≤ _; omega)]
  by_cases hm : m < 2 ^ 52
  · rw [if_neg (by omega), exponentField, if_pos hm]
  · rw [if_pos (by omega), exponentField, if_neg hm]

/-- A legal mantissa and exponent are packed so that they unpack to themselves. -/
theorem unpack_pack {s : Sign} {m : ℕ} {q : ℤ} (h : Legal m q) :
  (Float.Model.pack (.finite s m q h.pos)).unpack = .finite s m q h.pos
  := by
  change UnpackedFloat.unpack .binary64 (UnpackedFloat.pack .binary64 _) = _
  rw [pack_finite h, unpack_eq_ofFields, UnpackedFloat.unpackExponent_packComponents,
    UnpackedFloat.unpackMantissa_packComponents, UnpackedFloat.unpackSign_packComponents,
    UnpackedFloat.Sign.ofBitVec_toBitVec, BitVec.toNat_ofNat, BitVec.toNat_ofNat, exponentField,
    ofFields]
  obtain ⟨hpos, hlt, hle, hge, hnormal⟩ := h
  by_cases hm : m < 2 ^ 52
  · obtain rfl : q = -1074 := by omega
    have hfraction : m % 2 ^ 52 = m := Nat.mod_eq_of_lt hm
    rw [if_pos hm, Nat.zero_mod, if_neg (by decide), if_pos rfl,
      dif_neg (ne_of_eq_of_ne hfraction hpos.ne')]
    congr 1
  · have hexponent : (q + 1075).toNat % 2 ^ 11 = (q + 1075).toNat := Nat.mod_eq_of_lt (by omega)
    have hfraction : m % 2 ^ 52 + 2 ^ 52 = m := by omega
    rw [if_neg hm, hexponent, if_neg (by omega), if_neg (by omega)]
    congr 1
    omega

/-- A zero or a number is packed with its sign. -/
theorem signOf_pack {s : Sign} {u : UnpackedFloat}
    (hu : u = .zero s ∨ ∃ m e h, u = .finite s m e h) :
  signOf ⟨Float.Model.pack u⟩ = s
  := by
  rw [signOf_eq]
  change Sign.ofBitVec (UnpackedFloat.unpackSign (UnpackedFloat.pack .binary64 u)) = s
  obtain rfl | ⟨m, e, h, rfl⟩ := hu
  · rw [UnpackedFloat.pack, UnpackedFloat.packedZero, UnpackedFloat.unpackSign_packComponents,
      UnpackedFloat.Sign.ofBitVec_toBitVec]
  · rw [UnpackedFloat.pack.eq_def]
    simp only [UnpackedFloat.packedInfinity]
    split_ifs <;>
      rw [UnpackedFloat.unpackSign_packComponents, UnpackedFloat.Sign.ofBitVec_toBitVec]

/-- The opposite of a double is unpacked to the opposite. -/
theorem unpack_neg (x : Float) :
  (-x).toModel.unpack = x.toModel.unpack.neg
  := by
  change (Float.Model.pack x.toModel.unpack.neg).unpack = _
  cases hunpack : x.toModel.unpack with
  | notANumber => rfl
  | infinity s => cases s <;> rfl
  | zero s => cases s <;> rfl
  | finite s m q h => exact unpack_pack (s := -s) (legal_of_unpack hunpack)

theorem value?_neg {x : Float} {r : ℚ} (h : value? x = some r) :
  value? (-x) = some (-r)
  := by
  rw [value?] at h ⊢
  rw [unpack_neg]
  cases hunpack : x.toModel.unpack with
  | notANumber => simp [hunpack, unpackedValue?] at h
  | infinity s => simp [hunpack, unpackedValue?] at h
  | zero s =>
      rw [hunpack] at h
      obtain rfl := Option.some.inj h
      cases s <;> rfl
  | finite s m q hm =>
      rw [hunpack] at h
      obtain rfl := Option.some.inj h
      change some (((-s).apply m : ℚ) * 2 ^ q) = some (-((s.apply m : ℚ) * 2 ^ q))
      have hsign : (-s).apply m = -s.apply m := by
        cases s
        · exact (neg_neg (m : ℤ)).symm
        · rfl
      rw [hsign]
      push_cast
      rw [neg_mul]

/-- A positive double is unpacked to a mantissa and an exponent that denote it. -/
theorem exists_unpack_of_pos {x : Float} {r : ℚ} (hx : value? x = some r) (hr : 0 < r) :
  ∃ (m : ℕ) (q : ℤ) (h : Legal m q),
    x.toModel.unpack = .finite .positive m q h.pos ∧ (m * 2 ^ q : ℚ) = r
  := by
  rw [value?] at hx
  cases hunpack : x.toModel.unpack with
  | infinity s => simp [hunpack, unpackedValue?] at hx
  | notANumber => simp [hunpack, unpackedValue?] at hx
  | zero s =>
      rw [hunpack] at hx
      exact absurd (Option.some.inj hx) hr.ne
  | finite s m q h =>
      rw [hunpack] at hx
      cases s with
      | positive =>
          refine ⟨m, q, legal_of_unpack hunpack, rfl, ?_⟩
          simpa [unpackedValue?, Sign.apply] using hx
      | negative =>
          have hneg : (-m * 2 ^ q : ℚ) = r := by simpa [unpackedValue?, Sign.apply] using hx
          have hle : (-m * 2 ^ q : ℚ) ≤ 0 := by
            rw [neg_mul]
            exact neg_nonpos.mpr (by positivity)
          linarith

/-! ### Scaled integers -/

/-- Whether a sign is the negative one. -/
def isMinus : Sign → Bool
  | .negative => true
  | .positive => false

/-- The scaled integer that an unpacked double is, if it is finite. -/
def Binary.ofUnpacked? : UnpackedFloat → Option Binary
  | .zero s => some ⟨isMinus s, 0, -1074⟩
  | .finite s m e _ => some ⟨isMinus s, m, e⟩
  | _ => none

theorem Binary.ofFloat?_eq (x : Float) :
  Binary.ofFloat? x = Binary.ofUnpacked? x.toModel.unpack
  := by
  have hsign : isNegative x = isMinus (signOf x) := by
    rw [signOf]
    cases isNegative x <;> rfl
  rw [unpack_eq, ofFields, Binary.ofFloat?, hsign]
  split_ifs <;> simp_all [ofUnpacked?]

/-- A finite double is the number that its scaled integer denotes. -/
theorem value?_eq (x : Float) :
  value? x = (Binary.ofFloat? x).map Binary.value
  := by
  rw [Binary.ofFloat?_eq, value?]
  cases x.toModel.unpack with
  | infinity s => rfl
  | notANumber => rfl
  | zero s => simp [unpackedValue?, Binary.ofUnpacked?, Binary.value]
  | finite s m e h =>
      cases s <;> simp [unpackedValue?, Binary.ofUnpacked?, Binary.value, isMinus, Sign.apply]

end Prune.Number
