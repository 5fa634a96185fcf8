import Prune.Condition.Methods
import Prune.Proofs.Number.Decimals
import Prune.Proofs.Text.Encodings

/-!
# Searches in texts

The methods of texts that look for another text count in the code units of UTF-16: an occurrence of
characters is one of code units, at the number of units before it (`callMethod_search`).  The same
holds of bytes of UTF-8 (`before?_bytes`), so that it does not matter in which units a text is
searched.
-/

namespace Prune

open Text (OccursAt encode)

namespace Condition

/-! ### The first occurrence -/

/-- The characters before the first occurrence of a text. -/
theorem before?_eq_some {needle text pre : List Char} (h : before? needle text = some pre) :
  ∃ rest, text = pre ++ rest ∧ needle <+: rest
    ∧ ∀ pre' rest', text = pre' ++ rest' → needle <+: rest' → pre <+: pre'
  := by
  induction text generalizing pre with
  | nil =>
      rw [before?] at h
      split_ifs at h with hempty
      obtain rfl := Option.some.inj h
      rw [List.isEmpty_iff.mp hempty]
      exact ⟨[], rfl, List.nil_prefix, fun _ _ _ _ => List.nil_prefix⟩
  | cons c text ih =>
      rw [before?] at h
      split_ifs at h with hprefix
      · obtain rfl := Option.some.inj h
        exact ⟨c :: text, rfl, List.isPrefixOf_iff_prefix.mp hprefix, fun _ _ _ _ => List.nil_prefix⟩
      · obtain ⟨pre, hpre, rfl⟩ := Option.map_eq_some_iff.mp h
        obtain ⟨rest, rfl, hrest, hfirst⟩ := ih hpre
        refine ⟨rest, rfl, hrest, ?_⟩
        intro pre' rest' heq hrest'
        cases pre' with
        | nil =>
            rw [List.nil_append] at heq
            rw [heq] at hprefix
            exact absurd (List.isPrefixOf_iff_prefix.mpr hrest') hprefix
        | cons c' pre' =>
            obtain ⟨rfl, htail⟩ := List.cons.inj heq
            exact List.cons_prefix_cons.mpr ⟨rfl, hfirst pre' rest' htail hrest'⟩

/-- A text that is not found occurs nowhere. -/
theorem before?_eq_none {needle text : List Char} (h : before? needle text = none)
    (pre rest : List Char) (heq : text = pre ++ rest) :
  ¬ needle <+: rest
  := by
  induction text generalizing pre with
  | nil =>
      rw [before?] at h
      split_ifs at h with hempty
      obtain ⟨-, rfl⟩ := List.append_eq_nil_iff.mp heq.symm
      intro hprefix
      rw [List.prefix_nil.mp hprefix] at hempty
      exact hempty rfl
  | cons c text ih =>
      rw [before?] at h
      split_ifs at h with hprefix
      cases pre with
      | nil =>
          rw [List.nil_append] at heq
          rw [← heq]
          exact mt List.isPrefixOf_iff_prefix.mpr hprefix
      | cons c' pre =>
          obtain ⟨-, heq⟩ := List.cons.inj heq
          exact ih (Option.map_eq_none_iff.mp h) pre heq

/-- The search for characters is one in their codes, whatever they are as long as codes do not occur
within each other. -/
theorem before?_codes {α : Type} {code : Char → List α} {Starts : α → Prop}
    (hcode : Text.SelfSynchronizing code Starts) (needle text : List Char) :
  match before? needle text with
  | some pre => pre <+: text
      ∧ IsLeast {k | OccursAt (encode code needle) (encode code text) k} (encode code pre).length
  | none => ∀ k, ¬ OccursAt (encode code needle) (encode code text) k
  := by
  cases h : before? needle text with
  | none => exact hcode.not_occursAt (before?_eq_none h)
  | some pre =>
      obtain ⟨rest, rfl, hrest, hfirst⟩ := before?_eq_some h
      exact ⟨List.prefix_append pre rest, hcode.isLeast_occursAt hrest hfirst⟩

/-- The first occurrence of a text in bytes begins behind the same characters. -/
theorem before?_bytes (needle text : List Char) :
  match before? needle text with
  | some pre => pre <+: text
      ∧ IsLeast {k | OccursAt (encode String.utf8EncodeChar needle)
          (encode String.utf8EncodeChar text) k} (encode String.utf8EncodeChar pre).length
  | none => ∀ k, ¬ OccursAt (encode String.utf8EncodeChar needle)
      (encode String.utf8EncodeChar text) k
  := before?_codes Text.selfSynchronizing_bytes needle text

/-! ### Positions as doubles -/

theorem ofInt_natCast (k : ℕ) :
  ofInt k = k.toUInt64.toFloat
  := by
  rw [ofInt, Json.Number.toFloat, if_neg (by omega)]
  rfl

/-- Integers below `2 ^ 53` are doubles. -/
theorem value?_ofInt {n : ℤ} (h : n.natAbs < 2 ^ 53) :
  Number.value? (ofInt n) = some (n : ℚ)
  := by
  have hnat {k : ℕ} (hk : k < 2 ^ 53) : Number.value? k.toUInt64.toFloat = some (k : ℚ) := by
    obtain rfl | hpos := Nat.eq_zero_or_pos k
    · decide +kernel
    · exact Number.value?_toFloat hpos hk
  cases n with
  | ofNat k =>
      rw [Int.ofNat_eq_natCast, ofInt_natCast]
      exact hnat h
  | negSucc k =>
      rw [ofInt, Json.Number.toFloat, if_pos (Int.negSucc_lt_zero k), Int.cast_negSucc]
      exact Number.value?_neg (hnat h)

/-- No position is taken for minus one. -/
theorem ofInt_ne_minus_one (k : ℕ) :
  ofInt k ≠ ofInt (-1)
  := by
  intro h
  have hneg : Number.isNegative (ofInt (-1)) = true := by decide +kernel
  have hsign := Number.signOf_toFloat k.toUInt64
  rw [← ofInt_natCast, h, Number.signOf, hneg] at hsign
  contradiction

/-! ### The methods -/

theorem callMethod_startsWith (s t : String) :
  callMethod (.string s) "startsWith" [.string t]
    = .ok (.bool (decide (Text.units t.toList <+: Text.units s.toList)))
  := by
  have hprefix : t.toList.isPrefixOf s.toList
      = decide (Text.units t.toList <+: Text.units s.toList) := by
    rw [Bool.eq_iff_iff, List.isPrefixOf_iff_prefix, decide_eq_true_iff]
    exact Text.selfSynchronizing_units.prefix_iff.symm
  rw [← hprefix]
  rfl

theorem callMethod_endsWith (s t : String) :
  callMethod (.string s) "endsWith" [.string t]
    = .ok (.bool (decide (Text.units t.toList <:+ Text.units s.toList)))
  := by
  have hsuffix : t.toList.isSuffixOf s.toList
      = decide (Text.units t.toList <:+ Text.units s.toList) := by
    rw [Bool.eq_iff_iff, List.isSuffixOf_iff_suffix, decide_eq_true_iff]
    exact Text.selfSynchronizing_units.suffix_iff.symm
  rw [← hsuffix]
  rfl

theorem callMethod_includes (s t : String) :
  callMethod (.string s) "includes" [.string t] = .ok (.bool (before? t.toList s.toList).isSome)
  := rfl

theorem callMethod_indexOf (s t : String) :
  callMethod (.string s) "indexOf" [.string t]
    = .ok (.number ((before? t.toList s.toList).elim (ofInt (-1)) fun pre =>
      ofInt (Text.units pre).length))
  := by
  have hanswer : callTextMethod s [.string t] "indexOf"
      = some (.number ((before? t.toList s.toList).elim (ofInt (-1)) fun pre =>
        ofInt (Text.units pre).length)) := by
    rw [callTextMethod, firstText, List.head?_cons, Option.getD_some, Value.text]
    cases before? t.toList s.toList with
    | some pre => simp only [Text.unitCount_eq, Option.elim_some]
    | none => rfl
  simp only [callMethod, Value.isNullish, hanswer]
  rfl

/-- Searches count in code units of UTF-16.  The position of a text in another is that of the first
occurrence of its units, and minus one if there is none; a text is included if its position is not
minus one, and the text that begins or ends with it is the one whose units do.  The positions below
`2 ^ 53` are exact. -/
theorem callMethod_search (s t : String) :
  ∃ n : ℤ, callMethod (.string s) "indexOf" [.string t] = .ok (.number (ofInt n))
    ∧ ((∃ k : ℕ, n = k ∧ IsLeast {k | OccursAt (Text.units t.toList) (Text.units s.toList) k} k)
      ∨ n = -1 ∧ ∀ k, ¬ OccursAt (Text.units t.toList) (Text.units s.toList) k)
    ∧ (n.natAbs < 2 ^ 53 → Number.value? (ofInt n) = some (n : ℚ))
    ∧ (ofInt n = ofInt (-1) ↔ n = -1)
    ∧ callMethod (.string s) "includes" [.string t] = .ok (.bool (decide (n ≠ -1)))
    ∧ callMethod (.string s) "startsWith" [.string t]
      = .ok (.bool (decide (Text.units t.toList <+: Text.units s.toList)))
    ∧ callMethod (.string s) "endsWith" [.string t]
      = .ok (.bool (decide (Text.units t.toList <:+ Text.units s.toList)))
  := by
  have hstarts := callMethod_startsWith s t
  have hends := callMethod_endsWith s t
  have hsearch := before?_codes Text.selfSynchronizing_units t.toList s.toList
  simp only [← Text.units_eq] at hsearch
  rw [callMethod_indexOf, callMethod_includes]
  cases hbefore : before? t.toList s.toList with
  | some pre =>
      rw [hbefore] at hsearch
      have hne : ((Text.units pre).length : ℤ) ≠ -1 := by omega
      refine ⟨(Text.units pre).length, rfl, .inl ⟨_, rfl, hsearch.2⟩, value?_ofInt, ?_, ?_, hstarts,
        hends⟩
      · exact iff_of_false (ofInt_ne_minus_one _) hne
      · rw [decide_eq_true hne]
        rfl
  | none =>
      rw [hbefore] at hsearch
      exact ⟨-1, rfl, .inr ⟨rfl, hsearch⟩, value?_ofInt, iff_of_true rfl rfl, rfl, hstarts, hends⟩

/-- The character in the middle has two units. -/
example :
    callMethod (.string "a😀b") "indexOf" [.string "b"] = .ok (.number (ofInt 3)) := by
  rfl

end Condition

end Prune
