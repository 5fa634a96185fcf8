import Prune.Define
import Prune.Proofs.Condition.Spelling

/-!
# Definitions in conditions

The condition that is just the name of a definition has the value of the definition, unless the name
is a reserved word (`Define.evaluate_eq_iff`). A reserved word is no name in a condition: three of
them are literals and have values of their own (`Define.literals`), and the others have none.
-/

namespace Prune.Define

/-- The names of definitions that stand for values of their own, with these values. -/
def literals : List (String × Json) :=
  [("true", .bool true), ("false", .bool false), ("null", .null)]

/-! ### The names of definitions -/

theorem toNat_lt_of_isAlphanum {c : Char} (h : c.isAlphanum = true) :
  c.toNat < 0x80
  := by
  delta Char.isAlphanum Char.isAlpha Char.isUpper Char.isLower Char.isDigit at h
  simp only [Bool.or_eq_true, Bool.and_eq_true, decide_eq_true_eq, ge_iff_le,
    UInt32.le_iff_toNat_le, Char.toNat_val] at h
  change ((65 ≤ c.toNat ∧ c.toNat ≤ 90) ∨ (97 ≤ c.toNat ∧ c.toNat ≤ 122))
    ∨ (48 ≤ c.toNat ∧ c.toNat ≤ 57) at h
  omega

theorem isIdentStart_of_isNameStart {c : Char} (h : isNameStart c = true) :
  Text.isIdentStart c = true
  := by
  simp only [isNameStart, Bool.or_eq_true, beq_iff_eq] at h
  obtain (h | rfl) | rfl := h
  · have hascii : c.toNat < 0x80 := toNat_lt_of_isAlphanum (by simp [Char.isAlphanum, h])
    simp [Text.isIdentStart, hascii, h]
  · rfl
  · rfl

theorem isIdentPart_of_isNamePart {c : Char} (h : (isNameStart c || c.isDigit) = true) :
  Text.isIdentPart c = true
  := by
  simp only [isNameStart, Bool.or_eq_true, beq_iff_eq] at h
  obtain ((h | rfl) | rfl) | h := h
  · have hascii : c.toNat < 0x80 := toNat_lt_of_isAlphanum (by simp [Char.isAlphanum, h])
    simp [Text.isIdentPart, hascii, Char.isAlphanum, h]
  · rfl
  · rfl
  · have hascii : c.toNat < 0x80 := toNat_lt_of_isAlphanum (by simp [Char.isAlphanum, h])
    simp [Text.isIdentPart, hascii, Char.isAlphanum, h]

theorem isName_of_parse {text name : String} {value : Json} (h : parse text = .ok (name, value)) :
  isName name.toList = true
  := by
  unfold parse at h
  simp only at h
  split at h
  · contradiction
  · split at h
    · contradiction
    · next hname =>
      simp only [Except.ok.injEq, Prod.mk.injEq] at h
      obtain ⟨rfl, -⟩ := h
      simpa using hname

/-! ### Names as conditions -/

/-- The names that conditions can mention but formulas are not made of. -/
def specialNames : List String :=
  ["async", "await", "undefined", "NaN", "Infinity"]

/-- Whether an expression is a name in parentheses. -/
def isNamed (name : String) : Condition.Expr → Bool
  | .paren (.name text) => text == name
  | _ => false

theorem eq_of_isNamed {name : String} {e : Condition.Expr} (h : isNamed name e = true) :
  e = .paren (.name name)
  := by
  unfold isNamed at h
  split at h
  · rw [beq_iff_eq.mp h]
  · contradiction

theorem parse_special :
  ∀ name ∈ specialNames, Condition.parse name = .ok (.paren (.name name))
  := by
  have h : ∀ name ∈ specialNames, (Condition.parse name).toOption.any (isNamed name) = true := by
    decide +kernel
  intro name hname
  specialize h name hname
  cases hparse : Condition.parse name with
  | error cause => simp [hparse, Except.toOption] at h
  | ok e =>
      rw [hparse] at h
      rw [eq_of_isNamed h]

/-- The expression of a name is the name. -/
theorem parse_of_isName {name : String} (h : isName name.toList = true)
    (hreserved : name ∉ Source.reservedWords) :
  Condition.parse name = .ok (.paren (.name name))
  := by
  by_cases hspecial : name ∈ specialNames
  · exact parse_special name hspecial
  · have hlist : ∀ texts ⊆ specialNames, name ∉ texts := by
      intro texts htexts hname
      exact hspecial (htexts hname)
    cases hname : name.toList with
    | nil => simp [hname, isName] at h
    | cons c cs =>
        rw [hname, isName, Bool.and_eq_true, List.all_eq_true] at h
        have htext : String.ofList (c :: cs) = name := by rw [← hname, String.ofList_toList]
        let x : Condition.Formula.Name := {
          head := c
          tail := cs
          isIdentStart := isIdentStart_of_isNameStart h.1
          isIdentPart := by
            intro d hd
            apply isIdentPart_of_isNamePart
            obtain rfl | hd := List.mem_cons.mp hd
            · rw [h.1, Bool.true_or]
            · exact h.2 d hd
          notKeyword := by
            rw [htext, List.mem_append, not_or]
            exact ⟨hreserved, hlist _ (by decide)⟩
          notValue := by
            rw [htext]
            exact hlist _ (by decide) }
        have hx : x.text = name := htext
        have hspelled : Condition.Formula.Spelled (.name x) name.toList := by
          rw [hname]
          exact .name x
        rw [hspelled.parse_eq, Condition.Formula.expr, hx]

/-! ### Values -/

theorem evaluate_of_parse {text : String} {e : Condition.Expr}
    (h : Condition.parse text = .ok (.paren e)) (symbols : Condition.Symbols) :
  Condition.evaluate symbols text = (e.eval symbols).mapError .eval
  := by
  rw [Condition.evaluate, h]
  simp only [bind, Except.bind, Condition.Expr.eval_paren]
  cases e.eval symbols with
  | error cause => rfl
  | ok v => rfl

theorem eval_name_eq (name : String) (value : Json) :
  (Condition.Expr.name name).eval [(name, value)] = .ok (Value.ofJson value)
  := by
  have hget : Table.get? [(name, value)] name = some value := by simp [Table.get?]
  unfold Condition.Expr.eval Condition.Expr.run Condition.lookup
  rw [hget]
  rfl

/-- A literal has its own value, whatever the symbols are. -/
theorem evaluate_of_mem_literals {name : String} {value : Json} (h : (name, value) ∈ literals)
    (symbols : Condition.Symbols) :
  Condition.evaluate symbols name = .ok (Value.ofJson value)
  := by
  simp only [literals, List.mem_cons, Prod.mk.injEq, List.not_mem_nil, or_false] at h
  obtain ⟨rfl, rfl⟩ | ⟨rfl, rfl⟩ | ⟨rfl, rfl⟩ := h
  · rfl
  · rfl
  · rfl

/-- A reserved word that is no literal has no value, whatever the symbols are. -/
theorem evaluate_of_mem_reservedWords {name : String} (h : name ∈ Source.reservedWords)
    (hliteral : name ∉ literals.map (·.1)) (symbols : Condition.Symbols) :
  (Condition.evaluate symbols name).isOk = false
  := by
  -- Of these words only `this` is an expression, and none that has a value.
  have hparse : ∀ w ∈ Source.reservedWords, w ∉ "this" :: literals.map (·.1) →
      (Condition.parse w).isOk = false := by
    decide +kernel
  by_cases hthis : name = "this"
  · rw [hthis]
    rfl
  · specialize hparse name h (by simp [hthis, hliteral])
    rw [Condition.evaluate]
    cases hname : Condition.parse name with
    | error cause => rfl
    | ok e => simp [hname, Except.isOk, Except.toBool] at hparse

theorem eq_of_ofJson_eq {value other : Json} {name : String} (h : (name, value) ∈ literals)
    (heq : Value.ofJson value = Value.ofJson other) :
  value = other
  := by
  simp only [literals, List.mem_cons, Prod.mk.injEq, List.not_mem_nil, or_false] at h
  obtain ⟨-, rfl⟩ | ⟨-, rfl⟩ | ⟨-, rfl⟩ := h
  all_goals cases other <;> simp_all [Value.ofJson]

/-- The name of a definition has the value of the definition if and only if it is no reserved word,
or a literal that is defined as what it is. -/
theorem evaluate_eq_iff {text name : String} {value : Json} (h : parse text = .ok (name, value)) :
  Condition.evaluate [(name, value)] name = .ok (Value.ofJson value)
    ↔ name ∉ Source.reservedWords ∨ (name, value) ∈ literals
  := by
  by_cases hreserved : name ∈ Source.reservedWords
  · by_cases hliteral : name ∈ literals.map (·.1)
    · obtain ⟨⟨_, other⟩, hmem, rfl⟩ := List.mem_map.mp hliteral
      rw [evaluate_of_mem_literals hmem]
      constructor
      · intro heq
        rw [← eq_of_ofJson_eq hmem (Except.ok.inj heq)]
        exact .inr hmem
      · rintro (hno | hvalue)
        · contradiction
        · rw [← evaluate_of_mem_literals hmem [], evaluate_of_mem_literals hvalue]
    · have hnone := evaluate_of_mem_reservedWords hreserved hliteral [(name, value)]
      constructor
      · intro hok
        rw [hok] at hnone
        contradiction
      · rintro (hno | hvalue)
        · contradiction
        · exact absurd (List.mem_map_of_mem hvalue) hliteral
  · rw [evaluate_of_parse (parse_of_isName (isName_of_parse h) hreserved), eval_name_eq]
    constructor
    · intro
      exact .inl hreserved
    · intro
      rfl

/-- The name of a value that has a name can be defined anew. -/
theorem evaluate_eq_iff_undefined :
  parse "undefined = [8]" = .ok ("undefined", .array [.number (.int 8)]) ∧
    Condition.evaluate [("undefined", .array [.number (.int 8)])] "undefined"
      = .ok (Value.ofJson (.array [.number (.int 8)]))
  := by
  have hparse : parse "undefined = [8]" = .ok ("undefined", .array [.number (.int 8)]) := by
    rfl
  exact ⟨hparse, (evaluate_eq_iff hparse).mpr (.inl (by decide))⟩

/-- A reserved word that is defined: no condition can mention it. -/
theorem evaluate_ne_of_new :
  parse "new" = .ok ("new", .bool true) ∧
    Condition.evaluate [("new", .bool true)] "new" ≠ .ok (Value.ofJson (.bool true))
  := by
  constructor
  · rfl
  · intro h
    have hnone : (Condition.evaluate [("new", .bool true)] "new").isOk = false := by
      decide +kernel
    rw [h] at hnone
    contradiction

end Prune.Define
