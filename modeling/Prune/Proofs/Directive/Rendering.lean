import Prune.Proofs.Directive.Names

/-!
# Directives in canonical form

A directive is written with single blanks between its words, without an exclamation mark, and with
its name in lower case (`Directive.render`).  What is written is read as the same directive
(`Directive.parse_render`), unless the name of its switch starts with an exclamation mark, which is
then read as the optional one.
-/

namespace Prune

open Text (IsWord isWord_of_mem_words)

namespace Directive

variable {text : String} {line : Nat} {d : Directive} {name head : List Char}
  {rest : List (List Char)}

/-! ### What is written -/

/-- A directive is written as the words that it is read from, but for its first word. -/
theorem toList_render (kind : Kind) (rest : List (List Char)) (line : Nat) :
  (render ⟨kind, if rest.isEmpty then none else some (joinWords rest), line⟩).toList
    = [' '].intercalate (('#' :: kind.name.toList) :: rest)
  := by
  cases rest with
  | nil => simp [render]
  | cons word rest =>
      simp [render, joinWords, String.toList_intercalate, List.intercalate_cons_cons,
        Function.comp_def]

/-! ### The name of a directive -/

/-- The name of a directive is read as its kind. -/
theorem ofName_name (s : String) :
  Kind.ofName (Text.lower (Kind.ofName (Text.lower s)).name) = Kind.ofName (Text.lower s)
  := by
  obtain ⟨keyword, hkind⟩ | hkind := ofName_cases (Text.lower s)
  · rw [hkind, Kind.name, keyword.lower_name, Kind.ofName, keyword.ofName?_name]
  · rw [hkind, Kind.name, Text.lower_lower, hkind]

/-- The name that a word starts with is a word. -/
theorem isWord_of_headName? (h : headName? head = some name) (hhead : IsWord head) :
  IsWord name
  := by
  unfold headName? at h
  split at h
  · simp only [Option.ite_none_left_eq_some, List.isEmpty_iff, Option.some.injEq] at h
    obtain ⟨hne, rfl⟩ := h
    exact ⟨hne, fun c hc => hhead.isBlank_eq_false c (by simp [hc])⟩
  · simp only [Option.ite_none_left_eq_some, List.isEmpty_iff, Option.some.injEq] at h
    obtain ⟨hne, rfl⟩ := h
    exact ⟨hne, fun c hc => hhead.isBlank_eq_false c (by simp [hc])⟩
  · contradiction

/-- The name of a directive is a word. -/
theorem isWord_name (h : IsWord name) :
  IsWord (Kind.ofName (Text.lower (String.ofList name))).name.toList
  := by
  obtain ⟨keyword, hkind⟩ | hkind := ofName_cases (Text.lower (String.ofList name))
  · have hletters : (keyword.name.toList.all fun c => !Text.isBlank c) = true := by
      cases keyword <;> decide
    rw [hkind, Kind.name]
    constructor
    · cases keyword <;> decide
    · simpa using hletters
  · rw [hkind, Kind.name, Text.lower, String.toList_ofList, String.toList_ofList]
    constructor
    · rw [ne_eq, Text.lowerChars, Text.lowerFrom_eq_nil_iff]
      exact h.ne_nil
    · intro c hc
      by_contra hblank
      rw [Bool.not_eq_false] at hblank
      rw [Text.lowerChars, Text.mem_lowerFrom_iff_of_isBlank hblank] at hc
      rw [h.isBlank_eq_false c hc] at hblank
      contradiction

/-! ### What is read -/

/-- What is written for a directive is read as the directive, unless the name of its switch starts
with an exclamation mark. -/
theorem parse_render (h : parse text line = some d)
    (hswitch : ∀ name, d.kind = .switch name → name.toList.head? ≠ some '!') :
  parse d.render line = some d
  := by
  obtain ⟨head, rest, name, hwords, hhead, rfl⟩ := exists_of_parse h
  have hmem : ∀ w ∈ head :: rest, IsWord w := fun w hw => isWord_of_mem_words (hwords ▸ hw)
  obtain ⟨hword, hrest⟩ := List.forall_mem_cons.mp hmem
  obtain ⟨hne, hblank⟩ := isWord_name (isWord_of_headName? hhead hword)
  have hkind := ofName_name (String.ofList name)
  generalize Kind.ofName (Text.lower (String.ofList name)) = kind at *
  have hmark : kind.name.toList.head? ≠ some '!' := by
    cases kind with
    | branch keyword => cases keyword <;> decide
    | switch name => exact hswitch name rfl
  have hwritten : ∀ w ∈ ('#' :: kind.name.toList) :: rest, IsWord w :=
    List.forall_mem_cons.mpr
      ⟨⟨List.cons_ne_nil _ _, List.forall_mem_cons.mpr ⟨by decide, hblank⟩⟩, hrest⟩
  rw [Text.lower] at hkind
  rw [parse, toList_render, Text.words_intercalate hwritten]
  simp only [headName?_cons hne hmark, Option.map_some, hkind]

/-- A switch in capitals behind an exclamation mark, with a sigma that ends its name, and with marks
of directives in the words behind it. -/
theorem parse_render_sigma :
  let text := "\t#!ΟΔΟΣ\u00A0 !a  #b\n"
  let d : Directive := ⟨.switch "οδος", some "!a #b", 3⟩
  parse text 3 = some d ∧ d.render = "#οδος !a #b" ∧ parse d.render 3 = some d
  := by
  intro text d
  have hparse : parse text 3 = some d := by decide +kernel
  refine ⟨hparse, by decide, parse_render hparse ?_⟩
  rintro name ⟨⟩
  decide

/-- A second exclamation mark is part of the name, but not behind the number sign of a written one. -/
example : parse "#!!if" 1 = some ⟨.switch "!if", none, 1⟩ ∧
    parse (render ⟨.switch "!if", none, 1⟩) 1 = some ⟨.branch .opening, none, 1⟩ := by
  decide +kernel

end Directive

end Prune
