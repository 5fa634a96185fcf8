import Mathlib.Data.List.Basic
import Prune.Sort

/-!
# Sorted lists

A sorted list has the items of the list that was sorted (`mem_sortBy_iff`, `perm_sortBy`) in an order
that follows from the one it is sorted by (`pairwise_sortBy`), and sorting what is left of a list gives
what is left of the sorted list (`filter_sortBy`).

In whatever order items are given, they are sorted alike if no two of them come before each other
(`sortBy_eq_of_perm`), or if those with one key are given in one order (`sortBy_eq_of_filter`).

Of sorted items, equal ones stand together.  When each of them is kept once, the order becomes strict
(`pairwise_eraseRepsBy`).
-/

namespace Prune

variable {α : Type} {le : α → α → Bool} {a b : α} {p : α → Bool} {items : List α}

attribute [local simp] insertBy

theorem mem_insertBy_iff :
  b ∈ insertBy le a items ↔ b = a ∨ b ∈ items
  := by
  induction items with
  | nil => simp [insertBy]
  | cons c items ih =>
      rw [insertBy]
      split
      · simp
      · simp only [List.mem_cons, ih]
        exact or_left_comm

theorem mem_sortBy_iff :
  b ∈ sortBy le items ↔ b ∈ items
  := by
  induction items with
  | nil => rfl
  | cons a items ih =>
      rw [sortBy, List.foldr_cons, mem_insertBy_iff]
      change b = a ∨ b ∈ sortBy le items ↔ _
      rw [ih, List.mem_cons]

theorem perm_insertBy (le : α → α → Bool) (a : α) (items : List α) :
  (insertBy le a items).Perm (a :: items)
  := by
  induction items with
  | nil => rfl
  | cons b items ih =>
      rw [insertBy]
      split
      · rfl
      · exact (ih.cons b).trans (.swap a b items)

/-- A sorted list has each item as often as the list that was sorted. -/
theorem perm_sortBy (le : α → α → Bool) (items : List α) :
  (sortBy le items).Perm items
  := by
  induction items with
  | nil => rfl
  | cons a items ih => exact (perm_insertBy le a _).trans (ih.cons a)

/-- A sorted list is in every order that follows from the one it is sorted by. -/
theorem pairwise_sortBy {R : α → α → Prop} (htrans : ∀ {a b c}, R a b → R b c → R a c)
    (hle : ∀ {a b}, le a b = true → R a b) (hnot : ∀ {a b}, le a b = false → R b a)
    (items : List α) :
  (sortBy le items).Pairwise R
  := by
  have hinsert (a : α) (items : List α) (h : items.Pairwise R) : (insertBy le a items).Pairwise R := by
    induction items with
    | nil => simp [insertBy]
    | cons b items ih =>
        obtain ⟨hb, hitems⟩ := List.pairwise_cons.mp h
        rw [insertBy]
        split
        · next hab =>
          refine List.pairwise_cons.mpr ⟨?_, h⟩
          intro c hc
          obtain rfl | hc := List.mem_cons.mp hc
          · exact hle hab
          · exact htrans (hle hab) (hb c hc)
        · next hab =>
          refine List.pairwise_cons.mpr ⟨?_, ih hitems⟩
          intro c hc
          obtain rfl | hc := mem_insertBy_iff.mp hc
          · exact hnot (by simpa using hab)
          · exact hb c hc
  induction items with
  | nil => exact .nil
  | cons a items ih => exact hinsert a _ ih

theorem pairwise_le_sortBy (htrans : ∀ a b c, le a b = true → le b c = true → le a c = true)
    (htotal : ∀ a b, le a b = false → le b a = true) (items : List α) :
  (sortBy le items).Pairwise fun a b => le a b = true
  := by
  apply pairwise_sortBy
  · exact fun hab hbc => htrans _ _ _ hab hbc
  · exact id
  · exact fun hab => htotal _ _ hab

/-- An item that comes before all others stays in front of them. -/
theorem insertBy_of_forall (h : ∀ b ∈ items, le a b = true) :
  insertBy le a items = a :: items
  := by
  cases items with
  | nil => rfl
  | cons b items => simp [insertBy, h b List.mem_cons_self]

theorem filter_insertBy (htrans : ∀ a b c, le a b = true → le b c = true → le a c = true)
    (hitems : items.Pairwise fun a b => le a b = true) :
  (insertBy le a items).filter p
    = if p a then insertBy le a (items.filter p) else items.filter p
  := by
  induction items with
  | nil =>
      cases hp : p a with
      | true => simp [insertBy, hp]
      | false => simp [insertBy, hp]
  | cons b items ih =>
      obtain ⟨hb, hitems⟩ := List.pairwise_cons.mp hitems
      rw [insertBy]
      split
      · next hab =>
        -- the item comes before all of the list, and so before all that is left of it
        have hle : ∀ c ∈ (b :: items).filter p, le a c = true := by
          intro c hc
          obtain rfl | hc := List.mem_cons.mp (List.mem_filter.mp hc).1
          · exact hab
          · exact htrans a b c hab (hb c hc)
        rw [insertBy_of_forall hle, List.filter_cons]
      · next hab =>
        rw [List.filter_cons, List.filter_cons, ih hitems]
        cases hpb : p b with
        | false => simp
        | true =>
            cases hpa : p a with
            | false => simp
            | true => simp [insertBy, hab]

/-- A list that is in order stays as it is. -/
theorem sortBy_of_pairwise (h : items.Pairwise fun a b => le a b = true) :
  sortBy le items = items
  := by
  induction items with
  | nil => rfl
  | cons a items ih =>
      have hcons : sortBy le (a :: items) = insertBy le a (sortBy le items) := rfl
      rw [hcons, ih h.of_cons, insertBy_of_forall fun b hb => List.rel_of_pairwise_cons h hb]

/-- Sorting what is left of a list gives what is left of the sorted list. -/
theorem filter_sortBy (htrans : ∀ a b c, le a b = true → le b c = true → le a c = true)
    (htotal : ∀ a b, le a b = false → le b a = true) (p : α → Bool) (items : List α) :
  (sortBy le items).filter p = sortBy le (items.filter p)
  := by
  induction items with
  | nil => rfl
  | cons a items ih =>
      have hsorted := pairwise_le_sortBy htrans htotal items
      have hcons : sortBy le (a :: items) = insertBy le a (sortBy le items) := rfl
      rw [hcons, filter_insertBy htrans hsorted, ih, List.filter_cons]
      cases hp : p a with
      | true => rfl
      | false => rfl

/-! ### Items in different orders -/

/-- Items of which no two come before each other are sorted alike, in whatever order they are
given. -/
theorem sortBy_eq_of_perm {others : List α}
    (htrans : ∀ a b c, le a b = true → le b c = true → le a c = true)
    (htotal : ∀ a b, le a b = false → le b a = true) (hperm : others.Perm items)
    (hanti : ∀ a ∈ items, ∀ b ∈ items, le a b = true → le b a = true → a = b) :
  sortBy le others = sortBy le items
  := by
  apply List.Perm.eq_of_pairwise _ (pairwise_le_sortBy htrans htotal others)
    (pairwise_le_sortBy htrans htotal items)
  · exact (perm_sortBy le others).trans (hperm.trans (perm_sortBy le items).symm)
  · intro a b ha hb
    exact hanti a (hperm.mem_iff.mp (mem_sortBy_iff.mp ha)) b (mem_sortBy_iff.mp hb)

section Keys

variable {key : α → Nat} {others : List α}

theorem mem_iff_of_filter_key
    (h : ∀ k, others.filter (fun a => key a == k) = items.filter fun a => key a == k) (a : α) :
  a ∈ others ↔ a ∈ items
  := by
  have hfilter (items : List α) : a ∈ items ↔ a ∈ items.filter fun b => key b == key a := by simp
  rw [hfilter others, h, ← hfilter]

theorem key_le_of_mem (h : (a :: items).Pairwise fun a b => key a ≤ key b)
    (hb : b ∈ a :: items) :
  key a ≤ key b
  := by
  obtain rfl | hb := List.mem_cons.mp hb
  · exact Nat.le_refl _
  · exact (List.pairwise_cons.mp h).1 b hb

/-- Sorted lists are equal if they have the same items with each key, in the same order. -/
theorem eq_of_filter_key (hitems : items.Pairwise fun a b => key a ≤ key b)
    (hothers : others.Pairwise fun a b => key a ≤ key b)
    (h : ∀ k, others.filter (fun a => key a == k) = items.filter fun a => key a == k) :
  others = items
  := by
  induction items generalizing others with
  | nil =>
      apply List.eq_nil_iff_forall_not_mem.mpr
      intro a ha
      exact List.not_mem_nil ((mem_iff_of_filter_key h a).mp ha)
  | cons a items ih =>
      cases others with
      | nil => exact absurd ((mem_iff_of_filter_key h a).mpr List.mem_cons_self) List.not_mem_nil
      | cons b others =>
          -- each of the first items is among the others, and so comes before the other
          have hkey : key b = key a := by
            apply Nat.le_antisymm
            · exact key_le_of_mem hothers ((mem_iff_of_filter_key h a).mpr List.mem_cons_self)
            · exact key_le_of_mem hitems ((mem_iff_of_filter_key h b).mp List.mem_cons_self)
          have hfirst := h (key a)
          rw [List.filter_cons_of_pos (by simp [hkey]), List.filter_cons_of_pos (by simp)] at hfirst
          obtain ⟨rfl, -⟩ := List.cons.inj hfirst
          congr 1
          apply ih hitems.of_cons hothers.of_cons
          intro k
          have hk := h k
          rw [List.filter_cons, List.filter_cons] at hk
          split at hk
          · exact (List.cons.inj hk).2
          · exact hk

theorem key_trans (a b c : α) (hab : decide (key a ≤ key b) = true)
    (hbc : decide (key b ≤ key c) = true) :
  decide (key a ≤ key c) = true
  := by
  simp only [decide_eq_true_eq] at *
  omega

theorem key_total (a b : α) (hab : decide (key a ≤ key b) = false) :
  decide (key b ≤ key a) = true
  := by
  simp only [decide_eq_true_eq, decide_eq_false_iff_not] at *
  omega

theorem pairwise_key_sortBy (items : List α) :
  (sortBy (fun a b => key a ≤ key b) items).Pairwise fun a b => key a ≤ key b
  := by
  apply (pairwise_le_sortBy key_trans key_total items).imp
  exact of_decide_eq_true

/-- Items are sorted by a key alike, in whatever order they are given, if those with one key are
given in one order. -/
theorem sortBy_eq_of_filter
    (h : ∀ k, others.filter (fun a => key a == k) = items.filter fun a => key a == k) :
  sortBy (fun a b => key a ≤ key b) others = sortBy (fun a b => key a ≤ key b) items
  := by
  apply eq_of_filter_key (pairwise_key_sortBy items) (pairwise_key_sortBy others)
  intro k
  rw [filter_sortBy key_trans key_total, filter_sortBy key_trans key_total, h]

end Keys

/-! ### Items kept once -/

section Repetitions

variable {r : α → α → Bool}

theorem eraseRepsBy_loop (r : α → α → Bool) (a : α) (items kept : List α) :
  List.eraseRepsBy.loop r a items kept = kept.reverse ++ List.eraseRepsBy r (a :: items)
  := by
  induction items generalizing a kept with
  | nil => simp [List.eraseRepsBy, List.eraseRepsBy.loop]
  | cons b items ih =>
      rw [List.eraseRepsBy, List.eraseRepsBy.loop, List.eraseRepsBy.loop]
      cases r a b with
      | true => simp only [ih, List.reverse_nil, List.nil_append]
      | false =>
          simp only [ih, List.reverse_cons, List.append_assoc, List.reverse_nil, List.nil_append]

theorem eraseRepsBy_cons_cons (r : α → α → Bool) (a b : α) (items : List α) :
  (a :: b :: items).eraseRepsBy r
    = if r a b then (a :: items).eraseRepsBy r else a :: (b :: items).eraseRepsBy r
  := by
  rw [List.eraseRepsBy, List.eraseRepsBy.loop]
  cases r a b with
  | true => rfl
  | false => simp [eraseRepsBy_loop]

theorem sublist_eraseRepsBy (r : α → α → Bool) (items : List α) :
  (items.eraseRepsBy r).Sublist items
  := by
  cases items with
  | nil => exact .refl _
  | cons a items =>
      induction items generalizing a with
      | nil => exact .refl _
      | cons b items ih =>
          rw [eraseRepsBy_cons_cons]
          split
          · exact (ih a).trans ((List.sublist_cons_self b items).cons_cons a)
          · exact (ih b).cons_cons a

/-- No item is lost for good when only equal ones are left out. -/
theorem mem_eraseReps_iff [BEq α] [LawfulBEq α] :
  b ∈ items.eraseReps ↔ b ∈ items
  := by
  cases items with
  | nil => rfl
  | cons a items =>
      induction items generalizing a with
      | nil => rfl
      | cons c items ih =>
          rw [List.eraseReps, eraseRepsBy_cons_cons]
          split
          · next hac =>
            obtain rfl := eq_of_beq hac
            change b ∈ (a :: items).eraseReps ↔ _
            rw [ih, List.mem_cons, List.mem_cons, List.mem_cons, or_self_left]
          · rw [List.mem_cons, List.mem_cons]
            exact or_congr_right (ih c)

/-- Items that are in order are in a stricter order when those that follow their like are left
out. -/
theorem pairwise_eraseRepsBy {S R : α → α → Prop} (hnot : ∀ {a b}, S a b → r a b = false → R a b)
    (htrans : ∀ {a b c}, R a b → S b c → R a c) (h : items.Pairwise S) :
  (items.eraseRepsBy r).Pairwise R
  := by
  cases items with
  | nil => exact .nil
  | cons a items =>
      induction items generalizing a with
      | nil => exact List.pairwise_singleton _ _
      | cons b items ih =>
          rw [eraseRepsBy_cons_cons]
          split
          · exact ih a (h.sublist ((List.sublist_cons_self b items).cons_cons a))
          · next hab =>
            have hab := hnot (List.rel_of_pairwise_cons h List.mem_cons_self) (by simpa using hab)
            refine List.pairwise_cons.mpr ⟨?_, ih b h.of_cons⟩
            intro c hc
            obtain rfl | hc := List.mem_cons.mp ((sublist_eraseRepsBy _ _).subset hc)
            · exact hab
            · exact htrans hab (List.rel_of_pairwise_cons h.of_cons hc)

/-- All items are kept if none follows its like. -/
theorem eraseRepsBy_of_pairwise (h : items.Pairwise fun a b => r a b = false) :
  items.eraseRepsBy r = items
  := by
  induction items with
  | nil => rfl
  | cons a items ih =>
      cases items with
      | nil => rfl
      | cons b items =>
          have hab : r a b = false := List.rel_of_pairwise_cons h List.mem_cons_self
          rw [eraseRepsBy_cons_cons, hab, if_neg Bool.false_ne_true, ih h.of_cons]

end Repetitions

end Prune
