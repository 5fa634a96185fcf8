import Mathlib.Data.List.Basic
import Prune.Proofs.Elision.Lists

/-!
# Arrays with holes

The elements of an array, of which some may be holes, are the slots of a row but for an empty one behind
the last separator (`Elision.elements`).  Holes play no part in what is deleted of an array
(`Elision.visitSeparated_filter`), and so the separator that goes with the last elements may be the one
in front of a hole: an array loses a hole if behind the last element that stays stand both a hole and an
element that goes, and none else (`Elision.exists_array_applyAll`).
-/

namespace Prune

open Text
open Source (Tree Span Rule Kind)

namespace Elision

variable {e : Elision} {separators pre post code : List Char} {row row' : Row} {t : Tree}
  {items : List Tree} {place : Option Tree} {places els : List (Option Tree)}

/-! ### Elements -/

/-- An element of an array that is no hole. -/
def element? (t : Tree) : Option Tree :=
  if isHole t then none else some t

/-- The elements of an array, given its slots: behind the last separator there is none if nothing stands
there. -/
def elements : List (Option Tree) → List (Option Tree)
  | [] => []
  | [place] => place.toList.map some
  | place :: q :: places => place :: elements (q :: places)

/-- Whether an element of an array stays. -/
def stays (e : Elision) (place : Option Tree) : Bool :=
  !place.any fun t => e.excluded t.span

/-- Whether behind some element that stays stand a hole and elements that go, and no other that stays. -/
def LosesHole (e : Elision) (els : List (Option Tree)) : Prop :=
  ∃ front t back, els = front ++ some t :: back ∧ e.excluded t.span = false ∧
    e.tailGoes (back.filterMap id) = true ∧ none ∈ back

theorem elements_cons (hne : places ≠ []) :
  elements (place :: places) = place :: elements places
  := by
  cases places with
  | nil => contradiction
  | cons q places => rw [elements]

theorem filterMap_elements (places : List (Option Tree)) :
  (elements places).filterMap id = places.filterMap id
  := by
  induction places with
  | nil => rfl
  | cons place places ih =>
      cases places with
      | nil => cases place <;> rfl
      | cons q places =>
          rw [elements_cons (by simp)]
          cases place with
          | none => exact ih
          | some t => exact congrArg (t :: ·) ih

theorem filterMap_element? (items : List Tree) :
  (items.map element?).filterMap id = items.filter fun t => !isHole t
  := by
  rw [List.filterMap_map, ← List.filterMap_eq_filter]
  apply List.filterMap_congr
  intro t _
  cases h : isHole t <;> simp [element?, h, Option.guard]

theorem not_losesHole_nil :
  ¬e.LosesHole []
  := by
  rintro ⟨front, t, back, h, -⟩
  simp at h

theorem losesHole_cons_none :
  e.LosesHole (none :: els) ↔ e.LosesHole els
  := by
  constructor
  · rintro ⟨front, t, back, h, hrest⟩
    obtain ⟨-, h⟩ | ⟨front, rfl, rfl⟩ := List.cons_eq_append_iff.mp h
    · simp at h
    · exact ⟨front, t, back, rfl, hrest⟩
  · rintro ⟨front, t, back, rfl, hrest⟩
    exact ⟨none :: front, t, back, rfl, hrest⟩

theorem losesHole_cons_some :
  e.LosesHole (some t :: els) ↔ e.LosesHole els ∨
    e.excluded t.span = false ∧ e.tailGoes (els.filterMap id) = true ∧ none ∈ els
  := by
  constructor
  · rintro ⟨front, u, back, h, hrest⟩
    obtain ⟨-, h⟩ | ⟨front, rfl, rfl⟩ := List.cons_eq_append_iff.mp h
    · obtain ⟨⟨⟩, rfl⟩ := List.cons.inj h
      exact .inr hrest
    · exact .inl ⟨front, u, back, rfl, hrest⟩
  · rintro (⟨front, u, back, rfl, hrest⟩ | hrest)
    · exact ⟨some t :: front, u, back, rfl, hrest⟩
    · exact ⟨[], t, els, rfl, hrest⟩

theorem not_losesHole_of_all (h : (els.filterMap id).all (fun t => e.excluded t.span) = true) :
  ¬e.LosesHole els
  := by
  rintro ⟨front, t, back, rfl, hstays, -⟩
  rw [List.all_eq_true] at h
  have := h t (by simp)
  simp [hstays] at this

/-! ### What is left of the elements -/

theorem left_ne_nil (hne : places ≠ []) :
  e.left places ≠ []
  := by
  induction places with
  | nil => contradiction
  | cons place places ih =>
      cases places with
      | nil => simp [left]
      | cons q places =>
          rw [left_cons _ (by simp)]
          cases place with
          | none => simp
          | some t =>
              dsimp only
              split
              · exact ih (by simp)
              · simp

theorem eq_none_of_mem_filter_stays
    (h : (els.filterMap id).all (fun t => e.excluded t.span) = true) :
  ∀ place ∈ els.filter e.stays, place = none
  := by
  intro place hplace
  obtain ⟨hmem, hstays⟩ := List.mem_filter.mp hplace
  cases place with
  | none => rfl
  | some t =>
      have := List.all_eq_true.mp h t (List.mem_filterMap.mpr ⟨some t, hmem, rfl⟩)
      simp [stays, this] at hstays

/-- Behind an element that stays and in front of such that go one hole less is left than there is. -/
theorem elements_left_of_tailGoes (hne : places ≠ []) (htail : e.tailGoes (places.filterMap id) = true)
    (hrest : elements (e.left places) = (elements places).filter e.stays) :
  (none ∈ elements places →
      some t :: (elements places).filter e.stays = elements (some t :: (e.left places).tail) ++ [none]) ∧
    (none ∉ elements places →
      elements (some t :: (e.left places).tail) = some t :: (elements places).filter e.stays)
  := by
  have hall : (places.filterMap id).all (fun t => e.excluded t.span) = true := by
    rw [tailGoes, Bool.and_eq_true] at htail
    exact htail.2
  have hnone := eq_none_of_mem_filter_stays (filterMap_elements places ▸ hall)
  have hmem : none ∈ elements places ↔ none ∈ (elements places).filter e.stays := by
    simp [stays]
  obtain ⟨tl, htl⟩ := List.head?_eq_some_iff.mp (head?_left hne hall)
  rw [hmem]
  rw [htl] at hrest ⊢
  generalize (elements places).filter e.stays = kept at *
  cases tl with
  | nil =>
      obtain rfl : kept = [] := hrest.symm
      simp [elements]
  | cons q tl =>
      -- All that is left behind the element are holes, so that it does not matter which of them goes.
      rw [elements_cons (by simp)] at hrest
      rw [List.tail_cons, elements_cons (by simp), ← hrest]
      have hholes : elements (q :: tl) = List.replicate (elements (q :: tl)).length none := by
        rw [List.eq_replicate_iff]
        exact ⟨rfl, fun place hplace => hnone place (hrest ▸ List.mem_cons_of_mem _ hplace)⟩
      constructor
      · intro _
        rw [List.cons_append, hholes, ← List.replicate_succ, List.replicate_succ']
      · intro hno
        exact absurd List.mem_cons_self hno

/-- What is left of the elements of an array: those that stay and the holes, but for one hole at the
end if the array loses one. -/
theorem elements_left (hne : places ≠ []) :
  (e.LosesHole (elements places) →
      (elements places).filter e.stays = elements (e.left places) ++ [none]) ∧
    (¬e.LosesHole (elements places) →
      elements (e.left places) = (elements places).filter e.stays)
  := by
  induction places with
  | nil => contradiction
  | cons place places ih =>
      cases places with
      | nil =>
          have hall (t : Tree) : ¬e.LosesHole [some t] := by
            rw [losesHole_cons_some]
            simp [not_losesHole_nil]
          cases place with
          | none => simp [elements, left, not_losesHole_nil]
          | some t =>
              cases hgoes : e.excluded t.span <;>
                simp [elements, left, stays, hall, hgoes, Option.filter]
      | cons q places =>
          have hrest : q :: places ≠ [] := by simp
          have hleft := left_ne_nil (e := e) hrest
          have ih := ih hrest
          rw [left_cons _ hrest, elements_cons hrest]
          generalize q :: places = rest at *
          cases place with
          | none =>
              rw [losesHole_cons_none]
              dsimp only
              rw [elements_cons hleft]
              simpa [List.filter_cons, stays] using ih
          | some t =>
              rw [losesHole_cons_some, filterMap_elements]
              dsimp only
              cases hgoes : e.excluded t.span with
              | true => simpa [List.filter_cons, stays, hgoes] using ih
              | false =>
                  cases htail : e.tailGoes (rest.filterMap id) with
                  | true =>
                      have hall : (rest.filterMap id).all (fun t => e.excluded t.span) = true := by
                        rw [tailGoes, Bool.and_eq_true] at htail
                        exact htail.2
                      have hno := not_losesHole_of_all (filterMap_elements rest ▸ hall)
                      have hkept := elements_left_of_tailGoes (t := t) hrest htail (ih.2 hno)
                      simpa [List.filter_cons, stays, hgoes, hno] using hkept
                  | false =>
                      rw [if_neg Bool.false_ne_true, if_neg Bool.false_ne_true, elements_cons hleft]
                      simpa [List.filter_cons, stays, hgoes] using ih

/-! ### Arrays in a text -/

/-- Holes play no part in what is deleted of a series. -/
theorem visitSeparated_filter (separators : List Char) (tidy : Bool) (kept : Option Span)
    (items : List Tree) :
  e.visitSeparated separators tidy kept items
    = e.visitSeparated separators tidy kept (items.filter fun t => !isHole t)
  := by
  have hall (items : List Tree) :
      items.all e.goesOrHole = (items.filter fun t => !isHole t).all e.goesOrHole := by
    rw [List.all_filter]
    congr 1
    funext t
    cases h : isHole t <;> simp [goesOrHole, h]
  induction items with
  | nil => rfl
  | cons t items ih =>
      rw [List.filter_cons]
      cases hhole : isHole t with
      | true => simp [visitSeparated, hhole, ih, none_append]
      | false => simp [visitSeparated, hhole, ← ih, ← hall]

theorem lastKept?_filter (items : List Tree) :
  e.lastKept? items = e.lastKept? (items.filter fun t => !isHole t)
  := by
  rw [lastKept?, lastKept?, List.filter_filter]
  congr 3
  funext t
  cases h : isHole t <;> simp [goesOrHole, h]

/-- Nothing but the row changes if ink stands at both of its ends. -/
theorem Thins.code_eq (h : e.Thins separators pre row post code row')
    (hpre : ∃ c, pre.getLast? = some c ∧ isBlank c = false)
    (hpost : ∃ c, post.head? = some c ∧ isBlank c = false) :
  code = pre ++ (row'.text ++ post)
  := by
  obtain ⟨front, back, lead, trail, rfl, rfl, rfl, hlead, htrail⟩ := h.around
  have hlead_nil : lead = [] := by
    obtain ⟨c, hc, hink⟩ := hpre
    exact eq_nil_of_ink_last rfl hlead ⟨c, hc, .inl hink⟩
  have htrail_nil : trail = [] := eq_nil_of_ink_first rfl htrail hpost
  rw [hlead_nil, htrail_nil, List.append_nil, List.nil_append]

/-- What is left of an array when elements of it go, any of them: an array of the elements that stay and
the holes, in their order, but for one hole at the end if a hole and elements that go stand behind the
last element that stays. -/
theorem exists_array_applyAll {text : String} {span : Span} (htext : e.text = text.toList)
    (h : e.Written .list (pre ++ ['[']) row (']' :: post))
    (hitems : items.map element? = elements row.places) :
  ∃ row' : Row, (Edit.applyAll text
      (e.visit "null" (.node .array span [.series .list items])).edits).toList
        = pre ++ '[' :: (row'.text ++ ']' :: post) ∧
    row'.Readable [','] ∧
    List.Forall₂ e.Keeps row'.items (row.items.filter fun t => !e.excluded t.tree.span) ∧
    (e.LosesHole (items.map element?) →
      (items.map element?).filter e.stays = elements row'.places ++ [none]) ∧
    (¬e.LosesHole (items.map element?) →
      elements row'.places = (items.map element?).filter e.stays)
  := by
  have htrees : (items.filter fun t => !isHole t) = row.trees := by
    rw [← filterMap_element?, hitems, filterMap_elements, Row.reduceOption_places]
  have hvisit : e.visit "null" (.node .array span [.series .list items])
      = e.visitSeparated Rule.list.separators true (e.lastKept? row.trees) row.trees := by
    rw [← htrees, ← visitSeparated_filter, ← lastKept?_filter]
    simp [visit, visitAll, append_none, Rule.separators]
  obtain ⟨row', hthins, hplaces⟩ := exists_row_applyAll htext h
  have hcode := hthins.code_eq ⟨'[', by simp, rfl⟩ ⟨']', rfl, rfl⟩
  have hleft := elements_left (e := e) (places_ne_nil row)
  rw [← hplaces, ← hitems] at hleft
  refine ⟨row', ?_, hthins.readable, hthins.items, hleft⟩
  rw [hvisit, hcode, List.append_assoc]
  rfl

/-- The array `[a, , b]`, of which the last element goes: the hole goes with it. -/
theorem exists_array_applyAll_three :
  let text := "[a,\n,\nb\n]"
  let e : Elision :=
    { text := text.toList, starts := lineStarts text, ranges := [⟨3, 3⟩], directives := [],
      others := [] }
  let name (c : Char) (pos : Nat) : Tree := .node (.name c.toString) ⟨pos, pos + 1⟩ []
  let items := [name 'a' 1, .node .hole ⟨4, 4⟩ [], name 'b' 6]
  let row : Row :=
    .cons ⟨[], some ⟨name 'a' 1, ['a']⟩, []⟩ ','
    (.cons ⟨[.blank '\n'], none, []⟩ ','
    (.last ⟨[.blank '\n'], some ⟨name 'b' 6, ['b']⟩, [.blank '\n']⟩))
  e.Written .list ['['] row [']'] ∧ items.map element? = elements row.places ∧
    e.LosesHole (items.map element?) ∧
    ∃ row' : Row, "[a\n,\n]".toList = '[' :: (row'.text ++ [']']) ∧ row'.Readable [','] ∧
      elements row'.places ++ [none] = [some (name 'a' 1), none]
  := by
  intro text e name items row
  have hexcluded : e.excluded ⟨1, 2⟩ = false ∧ e.excluded ⟨6, 7⟩ = true := by decide
  have hwritten : e.Written .list ['['] row [']'] := by
    constructor
    · decide
    · decide
    · refine ⟨?_, ?_, ?_⟩ <;> rintro t ⟨⟩
      · exact fits_name _ (by decide) ⟨'a', by decide⟩ ⟨'a', by decide⟩
      · exact fits_name _ (by decide) ⟨'b', by decide⟩ ⟨'b', by decide⟩
    · rintro c cs ⟨⟩
      decide
  have hitems : items.map element? = elements row.places := rfl
  have hloses : e.LosesHole (items.map element?) :=
    ⟨[], name 'a' 1, [none, some (name 'b' 6)], rfl, hexcluded.1, by decide, List.mem_cons_self⟩
  refine ⟨hwritten, hitems, hloses, ?_⟩
  have hedits : (e.visit "null" (.node .array ⟨0, 9⟩ [.series .list items])).edits
      = [⟨6, 7, ""⟩, ⟨2, 3, ""⟩] := by decide
  have hcode : Edit.applyAll text [⟨6, 7, ""⟩, ⟨2, 3, ""⟩] = "[a\n,\n]" := by decide
  obtain ⟨row', hrow', hreadable, -, hleft, -⟩ :=
    @exists_array_applyAll e [] [] row items text ⟨0, 9⟩ rfl hwritten hitems
  use row'
  rw [hedits, hcode] at hrow'
  refine ⟨hrow', hreadable, ?_⟩
  rw [← hleft hloses]
  simp [items, element?, isHole, Tree.kind?, stays, name, Tree.span, hexcluded]

/-- Of the same array the element `a` and the hole stay, but what is left is an array of `a` alone. -/
theorem applyAll_loses_hole :
  let text := "[a,\n,\nb\n]"
  let e : Elision :=
    { text := text.toList, starts := lineStarts text, ranges := [⟨3, 3⟩], directives := [],
      others := [] }
  let name (c : Char) (pos : Nat) : Tree := .node (.name c.toString) ⟨pos, pos + 1⟩ []
  let items := [name 'a' 1, .node .hole ⟨4, 4⟩ [], name 'b' 6]
  let row : Row :=
    .cons ⟨[], some ⟨name 'a' 1, ['a']⟩, [.blank '\n']⟩ ',' (.last ⟨[.blank '\n'], none, []⟩)
  (items.map element?).filter e.stays = [some (name 'a' 1), none] ∧
    (Edit.applyAll text (e.visit "null" (.node .array ⟨0, 9⟩ [.series .list items])).edits).toList
      = '[' :: (row.text ++ [']']) ∧
    row.Readable [','] ∧ elements row.places = [some (name 'a' 1)]
  := by
  intro text e name items row
  have hexcluded : e.excluded ⟨1, 2⟩ = false ∧ e.excluded ⟨6, 7⟩ = true := by decide
  have hedits : (e.visit "null" (.node .array ⟨0, 9⟩ [.series .list items])).edits
      = [⟨6, 7, ""⟩, ⟨2, 3, ""⟩] := by decide
  refine ⟨?_, ?_, by decide, rfl⟩
  · simp [items, element?, isHole, Tree.kind?, stays, name, Tree.span, hexcluded]
  · rw [hedits]
    decide

end Elision

end Prune
