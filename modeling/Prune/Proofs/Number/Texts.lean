import Prune.Proofs.Number.Shortest

/-!
# The texts of numbers

A decimal written without an exponent (`Spells`) is read as the number it denotes
(`Spells.ofText_eq`), and so every decimal is read back as it was written
(`exists_spells_positional`).  The text of a finite double is read as that double, unless it is an
integer of more than 64 bits that is written as if it had 64 (`value?_ofText_text`).
-/

namespace Prune.Number

open Float.Model (UnpackedFloat)

/-! ### Digits -/

/-- Texts of nothing but digits. -/
def AllDigits (cs : List Char) : Prop :=
  ∀ c ∈ cs, c.isDigit = true

theorem AllDigits.append {cs ds : List Char} (hc : AllDigits cs) (hd : AllDigits ds) :
  AllDigits (cs ++ ds)
  := by
  intro c h
  exact (List.mem_append.mp h).elim (hc c) (hd c)

theorem allDigits_replicate (n : ℕ) :
  AllDigits (List.replicate n '0')
  := by
  intro c h
  rw [List.eq_of_mem_replicate h]
  rfl

theorem allDigits_toDigits (n : ℕ) :
  AllDigits (Nat.toDigits 10 n)
  := fun _ => Nat.isDigit_of_mem_toDigits (by decide) (by decide)

theorem digitValue?_of_isDigit {c : Char} (h : c.isDigit = true) :
  digitValue? 10 c = some (c.toNat - 48)
  := by
  obtain ⟨hlo, hhi⟩ := Char.isDigit_iff_toNat.mp h
  have hrange : ('0' ≤ c && c ≤ '9') = true := by
    rw [Bool.and_eq_true, decide_eq_true_iff, decide_eq_true_iff]
    exact ⟨hlo, hhi⟩
  have hlt : c.toNat - 48 < 10 := by
    change c.toNat ≤ 57 at hhi
    omega
  simp only [digitValue?, hrange, if_true, if_pos hlt]

/-- Digits write the number that the library says they do. -/
theorem ofDigits_eq {cs : List Char} (h : AllDigits cs) :
  ofDigits 10 cs = Nat.ofDigitChars 10 cs 0
  := by
  rw [ofDigits, Nat.ofDigitChars_eq_foldl]
  apply List.foldl_ext
  intro n c hc
  rw [digitValue?_of_isDigit (h c hc), Option.getD_some, Nat.mul_comm]
  rfl

theorem ofDigits_toDigits (n : ℕ) :
  ofDigits 10 (Nat.toDigits 10 n) = n
  := by
  rw [ofDigits_eq (allDigits_toDigits n), Nat.ofDigitChars_ten_toDigits]

theorem ofDigits_append_zeros {cs : List Char} (h : AllDigits cs) (n : ℕ) :
  ofDigits 10 (cs ++ List.replicate n '0') = ofDigits 10 cs * 10 ^ n
  := by
  rw [ofDigits_eq (h.append (allDigits_replicate n)), ofDigits_eq h, Nat.ofDigitChars_append,
    Nat.ofDigitChars_replicate_zero, Nat.mul_comm]

theorem ofDigits_zeros_append {cs : List Char} (h : AllDigits cs) (n : ℕ) :
  ofDigits 10 (List.replicate n '0' ++ cs) = ofDigits 10 cs
  := by
  rw [ofDigits_eq ((allDigits_replicate n).append h), ofDigits_eq h, Nat.ofDigitChars_append,
    Nat.ofDigitChars_replicate_zero, Nat.mul_zero]

/-- Digits are read up to the first character that is none. -/
theorem spanDigits_append {cs rest : List Char} (h : AllDigits cs)
    (hrest : ∀ c ∈ rest.head?, c.isDigit = false) :
  spanDigits (cs ++ rest) = (cs, rest)
  := by
  rw [spanDigits, List.span_eq_takeWhile_dropWhile, List.takeWhile_append_of_pos h,
    List.dropWhile_append_of_pos h]
  cases rest with
  | nil => simp
  | cons c rest => simp [hrest c rfl]

theorem spanDigits_eq_self {cs : List Char} (h : AllDigits cs) :
  spanDigits cs = (cs, [])
  := by
  have hspan : spanDigits (cs ++ []) = (cs, []) := spanDigits_append h (by simp)
  rwa [List.append_nil] at hspan

/-! ### Decimals without exponents -/

/-- `Spells cs d` says that a text writes a decimal without an exponent: as digits, or with a point
that has digits on both sides. -/
inductive Spells : List Char → Decimal → Prop
  | whole {ws : List Char} (digits : AllDigits ws) (ne : ws ≠ []) :
      Spells ws ⟨ofDigits 10 ws, 0⟩
  | point {ws fs : List Char} (digits : AllDigits ws) (ne : ws ≠ []) (digits' : AllDigits fs)
      (ne' : fs ≠ []) : Spells (ws ++ '.' :: fs) ⟨ofDigits 10 (ws ++ fs), -fs.length⟩

theorem Spells.unsigned?_eq {cs : List Char} {d : Decimal} (h : Spells cs d) :
  unsigned? cs = some d
  := by
  cases h with
  | whole hw hne => simp [unsigned?, spanDigits_eq_self hw, hne, exponentPart?]
  | @point ws fs hw hne hf hne' =>
      have hspan : spanDigits (ws ++ '.' :: fs) = (ws, '.' :: fs) :=
        spanDigits_append hw (by rintro c ⟨⟩; rfl)
      simp [unsigned?, hspan, spanDigits_eq_self hf, hne, exponentPart?]

/-- The text of a decimal begins and ends with a digit. -/
theorem Spells.ends {cs : List Char} {d : Decimal} (h : Spells cs d) :
  (∃ c rest, cs = c :: rest ∧ c.isDigit = true) ∧ ∃ init c, cs = init ++ [c] ∧ c.isDigit = true
  := by
  cases h with
  | whole hw hne =>
      constructor
      · obtain ⟨c, rest, rfl⟩ := List.exists_cons_of_ne_nil hne
        exact ⟨c, rest, rfl, hw c (by simp)⟩
      · exact ⟨cs.dropLast, cs.getLast hne, (List.dropLast_concat_getLast hne).symm,
          hw _ (List.getLast_mem hne)⟩
  | @point ws fs hw hne hf hne' =>
      constructor
      · obtain ⟨c, rest, rfl⟩ := List.exists_cons_of_ne_nil hne
        exact ⟨c, rest ++ '.' :: fs, rfl, hw c (by simp)⟩
      · use ws ++ '.' :: fs.dropLast, fs.getLast hne'
        constructor
        · rw [List.append_assoc, List.cons_append, List.dropLast_concat_getLast hne']
        · exact hf _ (List.getLast_mem hne')

theorem isBlank_of_isDigit {c : Char} (h : c.isDigit = true) :
  Text.isBlank c = false
  := by
  obtain ⟨hlo, hhi⟩ := Char.isDigit_iff_toNat.mp h
  change 48 ≤ c.toNat at hlo
  change c.toNat ≤ 57 at hhi
  simp [Text.isBlank]
  omega

/-- A text without blanks at its ends is not trimmed. -/
theorem trimChars_eq_self {c : Char} {rest init : List Char} {d : Char}
    (heq : c :: rest = init ++ [d]) (hc : Text.isBlank c = false) (hd : Text.isBlank d = false) :
  Text.trimChars (c :: rest) = c :: rest
  := by
  rw [Text.trimChars, List.dropWhile_cons_of_neg (by simp [hc]), Text.trimEnd, heq]
  simp [hd]

theorem Spells.unsignedNumber?_eq {cs : List Char} {d : Decimal} (h : Spells cs d) :
  unsignedNumber? cs = some d.toFloat
  := by
  obtain ⟨c, rest, rfl, hc⟩ := h.ends.1
  -- No word begins with a digit.
  have hword (w : String) (hw : w.toList.head?.all (fun x => !x.isDigit)) :
      (String.ofList ((c :: rest).map Char.toLower) == w) = false := by
    rw [beq_eq_false_iff_ne]
    rintro rfl
    have hlower : c.toLower = c := by
      have hhi := (Char.isDigit_iff_toNat.mp hc).2
      rw [Char.toLower, dif_neg]
      rintro ⟨hge, -⟩
      exact absurd (hge.trans hhi) (by decide)
    simp [hlower, hc] at hw
  rw [unsignedNumber?, hword "inf" rfl, hword "infinity" rfl, hword "nan" rfl, h.unsigned?_eq]
  rfl

/-- The text of a decimal is read as its double, and with a sign as the opposite one. -/
theorem Spells.ofText_eq {cs : List Char} {d : Decimal} (h : Spells cs d) :
  ofText (String.ofList cs) = d.toFloat ∧ ofText (String.ofList ('-' :: cs)) = negate d.toFloat
  := by
  obtain ⟨⟨c, rest, rfl, hc⟩, init, last, hlast, hdigit⟩ := h.ends
  have hblank := isBlank_of_isDigit hdigit
  constructor
  · rw [ofText, String.toList_ofList, trimChars_eq_self hlast (isBlank_of_isDigit hc) hblank]
    split
    · contradiction
    · rename_i heq
      obtain ⟨rfl, -⟩ := List.cons.inj heq
      contradiction
    · rename_i heq
      obtain ⟨rfl, -⟩ := List.cons.inj heq
      contradiction
    · rw [h.unsignedNumber?_eq]
      rfl
  · have hsigned : '-' :: c :: rest = ('-' :: init) ++ [last] := congrArg ('-' :: ·) hlast
    rw [ofText, String.toList_ofList, trimChars_eq_self hsigned rfl hblank]
    change ((unsignedNumber? (c :: rest)).map negate).getD nan = _
    rw [h.unsignedNumber?_eq]
    rfl

/-! ### Decimals are read as they were written -/

/-- A text is followed by the zeros that end it. -/
theorem eq_append_zeros (cs : List Char) :
  ∃ j, cs = (cs.reverse.dropWhile (· == '0')).reverse ++ List.replicate j '0'
  := by
  use (cs.reverse.takeWhile (· == '0')).length
  have hzeros : cs.reverse.takeWhile (· == '0')
      = List.replicate (cs.reverse.takeWhile (· == '0')).length '0' := by
    rw [List.eq_replicate_iff]
    exact ⟨rfl, fun c hc => beq_iff_eq.mp (List.mem_takeWhile_imp (p := (· == '0')) hc)⟩
  rw [← List.reverse_replicate, ← hzeros, ← List.reverse_append, List.takeWhile_append_dropWhile,
    List.reverse_reverse]

/-- Digits with a point among them are digits before it, digits after it and zeros. -/
theorem exists_split {cs : List Char} {places : ℕ} (h : places < cs.length) :
  ∃ ws fs j, cs.take (cs.length - places) = ws
    ∧ (cs.drop (cs.length - places)).reverse.dropWhile (· == '0') = fs.reverse
    ∧ cs = ws ++ fs ++ List.replicate j '0' ∧ fs.length + j = places ∧ ws ≠ []
  := by
  obtain ⟨j, hj⟩ := eq_append_zeros (cs.drop (cs.length - places))
  refine ⟨_, _, j, rfl, (List.reverse_reverse _).symm, ?_, ?_, ?_⟩
  · rw [List.append_assoc, ← hj, List.take_append_drop]
  · have hlength := congrArg List.length hj
    rw [List.length_drop, List.length_append, List.length_replicate] at hlength
    omega
  · rw [← List.length_pos_iff, List.length_take]
    omega

/-- The text of a decimal with places: the digits before the point, and those after it if there are
any that are no zeros at the end. -/
theorem exists_positional_negSucc (n e : ℕ) :
  ∃ ws fs j, (Decimal.mk n (.negSucc e)).positional
        = (if fs.isEmpty then String.ofList ws else String.ofList (ws ++ '.' :: fs))
    ∧ AllDigits (ws ++ fs) ∧ ws ≠ [] ∧ fs.length + j = e + 1
    ∧ n = ofDigits 10 (ws ++ fs) * 10 ^ j
  := by
  have hdigits := allDigits_toDigits n
  set zeros := List.replicate (e + 1 + 1 - (Nat.toDigits 10 n).length) '0'
  have hpadded : AllDigits (zeros ++ Nat.toDigits 10 n) := (allDigits_replicate _).append hdigits
  have hlength : e + 1 < (zeros ++ Nat.toDigits 10 n).length := by
    rw [List.length_append, List.length_replicate]
    omega
  obtain ⟨ws, fs, j, hws, hfs, hsplit, hplaces, hne⟩ := exists_split hlength
  have hall : AllDigits (ws ++ fs) := by
    intro c hc
    apply hpadded c
    rw [hsplit]
    exact List.mem_append_left _ hc
  refine ⟨ws, fs, j, ?_, hall, hne, hplaces, ?_⟩
  · rw [← List.isEmpty_reverse, ← List.reverse_reverse fs, ← hws, ← hfs, List.reverse_reverse]
    rfl
  · rw [← ofDigits_append_zeros hall, ← hsplit, ofDigits_zeros_append hdigits, ofDigits_toDigits]

/-- The decimal that a text spells out is the one written there, up to the zeros that end it. -/
theorem exists_spells_positional (d : Decimal) :
  ∃ d', Spells d.positional.toList d' ∧ d'.value = d.value ∧ min d.exponent 0 ≤ d'.exponent
  := by
  obtain ⟨n, e⟩ := d
  cases e with
  | ofNat e =>
      have hdigits := allDigits_toDigits n
      use ⟨ofDigits 10 (Nat.toDigits 10 n ++ List.replicate e '0'), 0⟩
      refine ⟨?_, ?_, min_le_right _ _⟩
      · rw [Decimal.positional, String.toList_ofList]
        exact .whole (hdigits.append (allDigits_replicate e)) (by simp)
      · rw [Decimal.value, Decimal.value, ofDigits_append_zeros hdigits, ofDigits_toDigits]
        simp
  | negSucc e =>
      obtain ⟨ws, fs, j, htext, hall, hne, hplaces, hn⟩ := exists_positional_negSucc n e
      have hvalue : (Decimal.mk n (.negSucc e)).value
          = ofDigits 10 (ws ++ fs) * 10 ^ (-fs.length : ℤ) := by
        have hexponent : Int.negSucc e = -fs.length - j := by omega
        rw [Decimal.value, hn, hexponent, zpow_sub₀ (by norm_num), zpow_natCast]
        push_cast
        field_simp
      rw [htext]
      cases fs with
      | nil =>
          rw [List.append_nil] at hall hvalue
          refine ⟨⟨ofDigits 10 ws, 0⟩, ?_, hvalue.symm, min_le_right _ _⟩
          rw [List.isEmpty_nil, if_pos rfl, String.toList_ofList]
          exact .whole hall hne
      | cons f fs =>
          refine ⟨⟨ofDigits 10 (ws ++ f :: fs), -(f :: fs).length⟩, ?_, hvalue.symm, ?_⟩
          · rw [List.isEmpty_cons, if_neg (by decide), String.toList_ofList]
            exact .point (fun c hc => hall c (List.mem_append_left _ hc)) hne
              (fun c hc => hall c (List.mem_append_right _ hc)) (List.cons_ne_nil f fs)
          · change min (Int.negSucc e) 0 ≤ -((f :: fs).length : ℤ)
            omega

/-- A decimal in the range of doubles whose exponent is not far below theirs has no more digits than
such a double. -/
theorem Decimal.log2_digits_lt {d : Decimal} (hzero : d.digits ≠ 0) (hexponent : -346 ≤ d.exponent)
    (hhi : d.value < 2 ^ (1024 : ℤ)) :
  d.digits.log2 < 8000
  := by
  have hle : (2 : ℚ) ^ (d.digits.log2 : ℤ) ≤ d.digits := by
    exact_mod_cast Nat.log2_self_le hzero
  have hlt : (2 : ℚ) ^ (d.digits.log2 - 1150 : ℤ) < 2 ^ (1024 : ℤ) := calc
    (2 : ℚ) ^ (d.digits.log2 - 1150 : ℤ) = 2 ^ (d.digits.log2 : ℤ) * 2 ^ (-1150 : ℤ) := by
        rw [← zpow_add₀ two_ne_zero]
        rfl
    _ ≤ d.digits * 10 ^ d.exponent := by
        gcongr
        apply two_zpow_le_ten_zpow <;> omega
    _ < 2 ^ (1024 : ℤ) := hhi
  have := (zpow_lt_zpow_iff_right₀ one_lt_two).mp hlt
  omega

/-- A decimal is read as the double that the number it denotes reads as, with a sign as the opposite
one. -/
theorem value?_ofText_positional {d : Decimal} {m : ℕ} {q : ℤ} (hreads : Reads m q d.value)
    (hlegal : Legal m q) (hexponent : -346 ≤ d.exponent) :
  value? (ofText d.positional) = some (m * 2 ^ q : ℚ)
    ∧ value? (ofText ("-" ++ d.positional)) = some (-(m * 2 ^ q) : ℚ)
  := by
  obtain ⟨d', hspells, hvalue, hle⟩ := exists_spells_positional d
  rw [← hvalue] at hreads
  obtain ⟨hlo, hhi⟩ := hreads.range hlegal
  have hzero : d'.digits ≠ 0 := by
    intro hzero
    rw [Decimal.value, hzero, Nat.cast_zero, zero_mul] at hlo
    exact hlo.not_gt (by positivity)
  have hunpack := Decimal.toFloat_unpack hzero (d'.log2_digits_lt hzero (by omega) hhi) hreads hlegal
  obtain ⟨hpositive, hnegative⟩ := hspells.ofText_eq
  constructor
  · rw [String.ofList_toList] at hpositive
    rw [hpositive, value?, hunpack]
    rfl
  · have htext : String.ofList ('-' :: d.positional.toList) = "-" ++ d.positional := by
      apply String.toList_injective
      simp
    rw [← htext, hnegative]
    apply value?_neg
    rw [value?, hunpack]
    rfl

/-- An integer is read as the double that it reads as. -/
theorem value?_ofText_toString {n : ℤ} {m : ℕ} {q : ℤ} (hreads : Reads m q n.natAbs)
    (hlegal : Legal m q) :
  value? (ofText (toString n)) = some (if n < 0 then -(m * 2 ^ q) else m * 2 ^ q : ℚ)
  := by
  have hread (k : ℕ) (hk : Reads m q k) :
      value? (ofText (toString k)) = some (m * 2 ^ q : ℚ)
        ∧ value? (ofText ("-" ++ toString k)) = some (-(m * 2 ^ q) : ℚ) := by
    have htext : (Decimal.mk k 0).positional = toString k := by
      apply String.toList_injective
      change (String.ofList (Nat.toDigits 10 k ++ [])).toList = (Nat.repr k).toList
      rw [List.append_nil]
      rfl
    have hvalue : (Decimal.mk k 0).value = k := by rw [Decimal.value, zpow_zero, mul_one]
    rw [← htext]
    exact value?_ofText_positional (hvalue ▸ hk) hlegal (show (-346 : ℤ) ≤ 0 by decide)
  cases n with
  | ofNat k => exact (hread k hreads).1
  | negSucc k =>
      rw [if_pos (Int.negSucc_lt_zero k)]
      exact (hread (k + 1) hreads).2

end Prune.Number
