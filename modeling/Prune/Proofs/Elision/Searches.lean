import Mathlib.Data.List.Basic
import Prune.Process
import Prune.Proofs.Elision.Deletions
import Prune.Proofs.Elision.Parting
import Prune.Proofs.Source.Soundness

/-!
# Searches for separators and the next token

The search for the separator behind a member reads blanks and comments by rules of its own.  It finds
the next token behind the member just when this is a separator and nothing but blanks of ASCII and
comments stands before it (`separatorAfter_eq_some_iff`), as long as no comment there ends at a line
break that the search takes for a part of the comment.  Behind other blanks it finds nothing, and
behind such a comment it may find a separator that belongs to something else
(`separatorAfter_ne_separatorBehind`).
-/

namespace Prune

open Text Source

namespace Source

/-! ### The next token -/

/-- The token behind an offset. -/
def Token.behind (text : List Char) (pos : Nat) : Token :=
  Token.read true false pos (dropBytes pos text)

/-- Where the token behind an offset stands, if it is one of some separators. -/
def separatorBehind? (separators text : List Char) (pos : Nat) : Option Nat :=
  let next := Token.behind text pos
  if separators.any fun c => next.isPunct (String.singleton c) then some next.span.lo else none

theorem kind_readLexeme_separator {rule : Rule} {c : Char} (hc : c ∈ rule.separators)
    (modular : Bool) (cs : List Char) :
  (readLexeme modular (c :: cs)).kind = .punct (String.singleton c)
  := by
  have hstart : isIdentStart ',' = false ∧ isIdentStart ';' = false := by decide
  obtain rfl | rfl := Elision.eq_of_mem_separators hc
  · simp [readLexeme, readPunct, longPuncts, shortPuncts, List.find?, List.isPrefixOf, hstart.1]
  · simp [readLexeme, readPunct, longPuncts, shortPuncts, List.find?, List.isPrefixOf, hstart.2]

/-- A token is a separator just when one stands where the gap before it ends. -/
theorem Token.isPunct_read_iff {rule : Rule} {c : Char} (hc : c ∈ rule.separators)
    (modular newline : Bool) (pos : Nat) (cs : List Char) :
  (Token.read modular newline pos cs).isPunct (String.singleton c) = true
    ↔ (Gap.read newline pos cs).rest.head? = some c
  := by
  constructor
  · intro h
    have hkind := Token.kind_of_isPunct h
    obtain ⟨⟨tail, htail⟩, -⟩ := (located_readLexeme modular _).punct _ hkind
    rw [← htail]
    simp
  · intro h
    obtain ⟨tail, htail⟩ := List.head?_eq_some_iff.mp h
    have hkind : (Token.read modular newline pos cs).kind = .punct (String.singleton c) := by
      rw [Token.read, htail]
      exact kind_readLexeme_separator hc modular tail
    rw [Token.isPunct, hkind]
    simp

theorem separatorBehind_eq_some_iff {rule : Rule} {text : List Char} {pos sep : Nat} :
  separatorBehind? rule.separators text pos = some sep ↔
    (∃ c ∈ rule.separators, (Gap.read false pos (dropBytes pos text)).rest.head? = some c) ∧
      (Gap.read false pos (dropBytes pos text)).pos = sep
  := by
  have hany : (rule.separators.any fun c => (Token.behind text pos).isPunct (String.singleton c))
      = true ↔ ∃ c ∈ rule.separators,
        (Gap.read false pos (dropBytes pos text)).rest.head? = some c := by
    rw [List.any_eq_true]
    apply exists_congr
    exact fun c => and_congr_right fun hc => Token.isPunct_read_iff hc true false pos _
  simp only [separatorBehind?, Option.ite_none_right_eq_some, Option.some.injEq, hany]
  rfl

end Source

/-! ### Members -/

/-- The search behind a member of a series finds the next token if this is a separator with nothing
but blanks of ASCII and comments before it, and nothing otherwise. -/
theorem separatorAfter_eq_some_iff {text path : String} {parsed : Parsed} {rule : Rule}
    {items : List Tree} {t : Tree} (hparse : parseSource text path = some parsed)
    (hmark : ¬Marked text.toList) (hseries : parsed.tree.Below (.series rule items)) (ht : t ∈ items)
    (hends : ∀ k ∈ (Token.behind text.toList t.span.hi).comments, k.EndsLine text.toList)
    (ranges : List LineRange) (switches : Switches) (sep : Nat) :
  (Elision.ofParsed text parsed ranges switches).separatorAfter? rule.separators t.span.hi
      = some sep ↔
    separatorBehind? rule.separators text.toList t.span.hi = some sep ∧
      Elision.Vacant text.toList (Token.behind text.toList t.span.hi).comments t.span.hi sep
  := by
  have hsound := sound_parseModule hmark hparse
  have hstands := (hsound.tree.placed (.item hseries ht)).hi.stands_dropBytes
  rw [separatorBehind_eq_some_iff, and_assoc]
  exact Elision.separatorAfter_eq_some_iff_read hstands hends

/-- Behind a comment the next token is found. -/
theorem separatorAfter_eq_some_iff_comment :
  let text := "f(\n  a // why\n  , b);\n"
  ∃ parsed rule items t, parseSource text "a.js" = some parsed ∧
    parsed.tree.Below (.series rule items) ∧ t ∈ items ∧ t.span = ⟨5, 6⟩ ∧
    separatorBehind? rule.separators text.toList t.span.hi = some 16 ∧
    Elision.Vacant text.toList (Token.behind text.toList t.span.hi).comments t.span.hi 16
  := by
  intro text
  have h : (parseSource text "a.js").any (fun parsed => parsed.tree.subtrees.any fun u =>
      u.rule? == some .list && u.parts.any fun t => t.span == ⟨5, 6⟩ &&
        ((Elision.ofParsed text parsed [] []).separatorAfter? [','] t.span.hi == some 16 &&
          (Token.behind text.toList t.span.hi).comments.all fun k =>
            (dropBytes k.span.hi text.toList).head? == some '\n')) = true := by
    decide +kernel
  obtain ⟨parsed, hparse, h⟩ := (Option.any_eq_true _ _).mp h
  obtain ⟨u, hu, h⟩ := List.any_eq_true.mp h
  rw [Bool.and_eq_true, beq_iff_eq] at h
  obtain ⟨hrule, h⟩ := h
  obtain ⟨t, ht, h⟩ := List.any_eq_true.mp h
  simp only [Bool.and_eq_true, beq_iff_eq, List.all_eq_true] at h
  obtain ⟨hspan, hsep, hends⟩ := h
  cases u with
  | node => simp [Tree.rule?] at hrule
  | series rule items =>
      obtain rfl : rule = .list := Option.some.inj hrule
      have hseries := Tree.mem_subtrees_iff.mp hu
      have hends (k : Comment) (hk : k ∈ (Token.behind text.toList t.span.hi).comments) :
          k.EndsLine text.toList :=
        Comment.endsLine_of_dropBytes (.inr (.inl (hends k hk)))
      have hiff := separatorAfter_eq_some_iff hparse (by decide) hseries ht hends [] [] 16
      exact ⟨parsed, .list, items, t, hparse, hseries, ht, hspan, hiff.mp hsep⟩

-- a comment ends at a line separator, but the search takes it to go on to the line feed
example :
  let text := "f(a // why\u2028)\n, g;\n".toList
  separatorBehind? [','] text 3 = none ∧
    Elision.separatorFrom [','] .blank 3 (dropBytes 3 text) = some 15
  := by
  decide +kernel

/-- A comma behind a blank that is none of ASCII is the next token, but is not found: the member in
front of it goes, and the comma stays. -/
theorem separatorAfter_ne_separatorBehind :
  let text := "f(\n  // #if A\n  a\u00a0,\n  // #endif\n  b\n);\n"
  ∃ parsed p items t, parseSource text "a.js" = some parsed ∧ process text "a.js" {} = some p ∧
    parsed.tree.Below (.series .list items) ∧ t ∈ items ∧
    (Elision.ofParsed text parsed p.ranges []).excluded t.span = true ∧
    separatorBehind? [','] text.toList t.span.hi = some 19 ∧
    (Elision.ofParsed text parsed p.ranges []).separatorAfter? [','] t.span.hi = none ∧
    p.output.code = "f(\n  \u00a0,\n  b\n);\n"
  := by
  intro text
  have h : (parseSource text "a.js").any (fun parsed => (process text "a.js" {}).any fun p =>
      parsed.tree.subtrees.any fun u => u.rule? == some .list && u.parts.any fun t =>
        (Elision.ofParsed text parsed p.ranges []).excluded t.span &&
          (separatorBehind? [','] text.toList t.span.hi == some 19 &&
            ((Elision.ofParsed text parsed p.ranges []).separatorAfter? [','] t.span.hi == none &&
              p.output.code == "f(\n  \u00a0,\n  b\n);\n"))) = true := by
    decide +kernel
  obtain ⟨parsed, hparse, h⟩ := (Option.any_eq_true _ _).mp h
  obtain ⟨p, hp, h⟩ := (Option.any_eq_true _ _).mp h
  obtain ⟨u, hu, h⟩ := List.any_eq_true.mp h
  rw [Bool.and_eq_true, beq_iff_eq] at h
  obtain ⟨hrule, h⟩ := h
  obtain ⟨t, ht, h⟩ := List.any_eq_true.mp h
  simp only [Bool.and_eq_true, beq_iff_eq] at h
  obtain ⟨hgoes, hbehind, hsep, hcode⟩ := h
  cases u with
  | node => simp [Tree.rule?] at hrule
  | series rule items =>
      obtain rfl : rule = .list := Option.some.inj hrule
      have hseries := Tree.mem_subtrees_iff.mp hu
      exact ⟨parsed, p, items, t, hparse, hp, hseries, ht, hgoes, hbehind, hsep, hcode⟩

end Prune
