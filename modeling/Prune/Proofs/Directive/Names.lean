import Prune.Directive
import Prune.Proofs.Condition.Symbols
import Prune.Proofs.Text.Case
import Prune.Proofs.Text.Words

/-!
# The names of switches

A comment names a switch in any letter case, as the lower-case form of the name (`IsSwitchName`,
`Directive.parse_name`).  A table of switches has names in any letter case, too, but they are
compared with the name of a directive by the letters of ASCII alone (`Switches.flag?_singleton`).
So the name of a switch is found in a table just when no character of it above ASCII has a
lower-case form of its own, in whatever letter case the comment and the table spell it
(`isDirective_name_iff`).
-/

namespace Prune

open Text (IsLowerAboveAscii)

/-! ### Comments that are a name -/

/-- Whether a text can be the name of a switch: it is not empty, has no blanks, does not start with
an exclamation mark and is no keyword in any letter case. -/
structure IsSwitchName (name : String) : Prop where
  ne_nil : name.toList ≠ []
  isBlank_eq_false : ∀ c ∈ name.toList, Text.isBlank c = false
  head?_ne : name.toList.head? ≠ some '!'
  ofName?_eq_none : Keyword.ofName? (Text.lower name) = none

variable {name spelling : String}

/-- A name stays one in any other letter case. -/
theorem IsSwitchName.of_lower_eq (h : IsSwitchName name)
    (hlower : Text.lower spelling = Text.lower name) :
  IsSwitchName spelling
  := by
  have hchars : Text.lowerFrom [] spelling.toList = Text.lowerFrom [] name.toList :=
    String.ofList_injective hlower
  constructor
  · rw [ne_eq, ← Text.lowerFrom_eq_nil_iff [], hchars, Text.lowerFrom_eq_nil_iff]
    exact h.ne_nil
  · intro c hc
    by_contra hblank
    rw [Bool.not_eq_false] at hblank
    rw [← Text.mem_lowerFrom_iff_of_isBlank hblank [], hchars,
      Text.mem_lowerFrom_iff_of_isBlank hblank] at hc
    rw [h.isBlank_eq_false c hc] at hblank
    contradiction
  · rw [ne_eq, ← Text.head?_lowerFrom_iff (by decide) [], hchars,
      Text.head?_lowerFrom_iff (by decide)]
    exact h.head?_ne
  · rw [hlower]
    exact h.ofName?_eq_none

/-- The name behind a number sign, if no exclamation mark stands between them. -/
theorem Directive.headName?_cons {name : List Char} (hne : name ≠ [])
    (hhead : name.head? ≠ some '!') :
  headName? ('#' :: name) = some name
  := by
  unfold headName?
  split
  · next heq =>
    obtain ⟨-, heq⟩ := List.cons.inj heq
    rw [heq, List.head?_cons] at hhead
    contradiction
  · next heq =>
    obtain ⟨-, rfl⟩ := List.cons.inj heq
    simp [hne]
  · next hnot => exact absurd rfl (hnot _)

/-- A number sign and the name of a switch are the directive of the switch. -/
theorem Directive.parse_name (h : IsSwitchName name) (line : Nat) :
  parse ("#" ++ name) line = some ⟨.switch (Text.lower name), none, line⟩
  := by
  have htext : ("#" ++ name).toList = '#' :: name.toList := by
    rw [String.toList_append]
    rfl
  have hwords : Text.words ("#" ++ name).toList = ['#' :: name.toList] := by
    rw [htext]
    apply Text.words_of_isWord ⟨List.cons_ne_nil _ _, ?_⟩
    exact List.forall_mem_cons.mpr ⟨by decide, h.isBlank_eq_false⟩
  have hkind : Kind.ofName (Text.lower name) = .switch (Text.lower name) := by
    rw [Kind.ofName, h.ofName?_eq_none]
  rw [parse, hwords]
  simp only [headName?_cons h.ne_nil h.head?_ne, Option.map_some, List.isEmpty_nil, if_true]
  rw [← hkind]
  rfl

theorem Keyword.lower_name (keyword : Keyword) :
  Text.lower keyword.name = keyword.name
  := by
  cases keyword <;> decide

theorem Keyword.ofName?_name (keyword : Keyword) :
  ofName? keyword.name = some keyword
  := by
  cases keyword <;> decide

/-- A name is that of a keyword, or of the switch that it names. -/
theorem Directive.ofName_cases (s : String) :
  (∃ keyword, Kind.ofName s = .branch keyword) ∨ Kind.ofName s = .switch s
  := by
  rw [Kind.ofName]
  split
  · next keyword _ => exact .inl ⟨keyword, rfl⟩
  · exact .inr rfl

/-- What a directive is read from: the name at the front of its first word, and the others. -/
theorem Directive.exists_of_parse {text : String} {line : Nat} {d : Directive}
    (h : parse text line = some d) :
  ∃ head rest name, Text.words text.toList = head :: rest ∧ headName? head = some name ∧
    d = ⟨Kind.ofName (Text.lower (String.ofList name)),
      if rest.isEmpty then none else some (joinWords rest), line⟩
  := by
  unfold parse at h
  split at h
  · contradiction
  · next head rest hwords =>
    obtain ⟨name, hname, rfl⟩ := Option.map_eq_some_iff.mp h
    refine ⟨head, rest, name, hwords, hname, ?_⟩
    rw [Text.lower, String.toList_ofList]

/-- The name of a directive is the lower-case form of a text. -/
theorem Directive.exists_lower_of_parse {text : String} {line : Nat} {d : Directive}
    (h : parse text line = some d) :
  ∃ s, d.kind.name = Text.lower s
  := by
  obtain ⟨-, -, name, -, -, rfl⟩ := exists_of_parse h
  obtain ⟨keyword, hkind⟩ | hkind := ofName_cases (Text.lower (String.ofList name))
  · use keyword.name
    rw [hkind, keyword.lower_name]
    rfl
  · use String.ofList name
    rw [hkind]
    rfl

/-! ### Tables of switches -/

/-- A name that fails a test does not change which entry passes it first. -/
theorem Table.find?_putSorted {α : Type} (test : String → Bool) (h : test name = false)
    (t : Table α) (value : α) :
  ((t.putSorted name value).find? fun entry => test entry.1) = t.find? fun entry => test entry.1
  := by
  induction t with
  | nil => simp [putSorted, h]
  | cons entry t ih =>
      rw [putSorted]
      split
      · next heq =>
        rw [beq_iff_eq] at heq
        subst heq
        rw [List.find?_cons_of_neg (by simp [h]), List.find?_cons_of_neg (by simp [h])]
      · split
        · rw [List.find?_cons_of_neg (by simp [h])]
        · rw [List.find?_cons, List.find?_cons, ih]

/-- Turning a switch on or off by a name in lower case has no influence on directives of other
names. -/
theorem Switches.flag?_putSorted (switches : Switches) (s : String) (flag : Bool) (t : String) :
  Switches.flag? (switches.putSorted (Text.lower s) flag) (Text.lower t)
    = if Text.lower s = Text.lower t then some flag else switches.flag? (Text.lower t)
  := by
  rw [flag?, Table.get?_putSorted]
  by_cases heq : Text.lower s = Text.lower t
  · rw [if_pos heq, if_pos heq]
  · have hother : Text.sameIgnoringAsciiCase (Text.lower s) (Text.lower t) = false := by
      rw [Text.sameIgnoringAsciiCase, Text.toLower_lower, Text.toLower_lower, beq_eq_false_iff_ne]
      intro h
      exact heq (String.toList_injective h)
    rw [if_neg heq, if_neg heq,
      Table.find?_putSorted (fun key => Text.sameIgnoringAsciiCase key (Text.lower t)) hother]
    rfl

/-- A table of one switch has a flag for all names that differ at most in the case of the letters of
ASCII. -/
theorem Switches.flag?_singleton (name : String) (flag : Bool) (other : String) :
  Switches.flag? [(name, flag)] other
    = if Text.sameIgnoringAsciiCase name other then some flag else none
  := by
  by_cases heq : name = other
  · simp [flag?, Table.get?, heq, Text.sameIgnoringAsciiCase]
  · cases hsame : Text.sameIgnoringAsciiCase name other with
    | true => simp [flag?, Table.get?, heq, hsame]
    | false => simp [flag?, Table.get?, heq, hsame]

/-- A comment that names a switch of a table, each in a letter case of its own, is the directive of
the name in lower case.  It is recognised, and the switch has its flag, just when no character of
the name in the table that lies above ASCII has a lower-case form of its own. -/
theorem isDirective_name_iff (hname : IsSwitchName name)
    (hspelling : Text.lower spelling = Text.lower name) (flag : Bool) :
  (∀ line, Directive.parse ("#" ++ spelling) line = some ⟨.switch (Text.lower name), none, line⟩) ∧
    (isDirective ("#" ++ spelling) [(name, flag)] = true ↔ IsLowerAboveAscii name.toList) ∧
    (Switches.flag? [(name, flag)] (Text.lower name) = some flag ↔ IsLowerAboveAscii name.toList)
  := by
  have hparse (line : Nat) : Directive.parse ("#" ++ spelling) line
      = some ⟨.switch (Text.lower name), none, line⟩ := by
    rw [Directive.parse_name (hname.of_lower_eq hspelling), hspelling]
  refine ⟨hparse, ?_, ?_⟩
  · rw [← Text.sameIgnoringAsciiCase_lower_iff]
    simp [isDirective, hparse, Switches.flag?_singleton]
  · rw [← Text.sameIgnoringAsciiCase_lower_iff]
    simp [Switches.flag?_singleton]

/-- A name whose letter beyond ASCII is a small one is found, even where a comment spells it with
capitals alone. -/
theorem isDirective_name_iff_accent :
  IsSwitchName "Dé" ∧ Text.lower "DÉ" = Text.lower "Dé" ∧
    Directive.parse "#DÉ" 3 = some ⟨.switch "dé", none, 3⟩ ∧
    isDirective "#DÉ" [("Dé", false)] = true ∧
    Switches.flag? [("Dé", false)] "dé" = some false
  := by
  have hlower : Text.lower "Dé" = "dé" := by decide +kernel
  have hspelling : Text.lower "DÉ" = "dé" := by decide +kernel
  have hname : IsSwitchName "Dé" := by
    refine ⟨by decide, ?_, by decide, ?_⟩
    · simp [Text.isBlank]
    · rw [hlower]
      decide
  have hsmall : IsLowerAboveAscii "Dé".toList := by
    rw [← Text.sameIgnoringAsciiCase_lower_iff, hlower]
    decide
  obtain ⟨hparse, hdirective, hflag⟩ :=
    isDirective_name_iff hname (hspelling.trans hlower.symm) false
  rw [hlower] at hparse hflag
  exact ⟨hname, hspelling.trans hlower.symm, hparse 3, hdirective.mpr hsmall, hflag.mpr hsmall⟩

/-- A name with a capital letter beyond ASCII is not even found where the comment and the table
spell it alike. -/
theorem not_isDirective_of_capital :
  IsSwitchName "É" ∧ isDirective "#É" [("É", false)] = false ∧
    Switches.flag? [("É", false)] (Text.lower "É") = none
  := by
  have hlower : Text.lower "É" = "é" := by decide +kernel
  have hname : IsSwitchName "É" := by
    refine ⟨by decide, ?_, by decide, ?_⟩
    · simp [Text.isBlank]
    · rw [hlower]
      decide
  have hflag : Switches.flag? [("É", false)] (Text.lower "É") = none := by
    rw [hlower]
    decide
  refine ⟨hname, ?_, hflag⟩
  have hparse : Directive.parse "#É" 0 = some ⟨.switch (Text.lower "É"), none, 0⟩ :=
    Directive.parse_name hname 0
  rw [isDirective, hparse]
  simp only [hflag, Option.isSome_none]

end Prune
