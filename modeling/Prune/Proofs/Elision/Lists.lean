import Mathlib.Data.List.Basic
import Prune.Proofs.Elision.Thinning

/-!
# Separated lists

Taking members out of a separated list leaves a separated list of the others
(`Elision.exists_list_applyAll`): one separator stands between each two of them, none in front of
the first, and none behind the last if the last member of the list goes.  Around the list nothing
goes but blanks.

The edits that take out something of a member that stays are those made in it
(`Elision.filter_covers_visitSeparated`), and so the member stays as it is if there are none
(`Elision.Keeps`).
-/

namespace Prune

open Text
open Source (Tree Span Rule)

namespace Elision

variable {e : Elision} {rule : Rule} {pre post : List Char} {row others : Row} {s : Slot}
  {t : Item} {edit : Edit} {edits : List Edit} {items : List Tree} {kept : Option Span} {pos : Nat}
  {c : Char} {separators : List Char}

/-! ### Members of a row -/

/-- A member of a row stands in the text, and not in front of the row. -/
theorem stands_item (h : e.Written rule pre row post) (ht : t ∈ row.items) :
  e.Fits t.tree.span.lo t ∧ byteLength pre ≤ t.tree.span.lo ∧
    ∃ tail, Stands e.text (t.text ++ tail) t.tree.span.lo
  := by
  induction row generalizing pre with
  | last s =>
      have ht : t ∈ s.item? := by simpa [Row.items] using ht
      have hat := slotAt h.stands h.fits ht
      refine ⟨?_, by rw [hat.lo]; exact Nat.le_add_right _ _, _, hat.item⟩
      rw [hat.lo]
      exact h.fits t ht
  | cons s c others ih =>
      rw [Row.items, List.mem_append] at ht
      obtain ht | ht := ht
      · have ht : t ∈ s.item? := by simpa using ht
        have hat := slotAt h.stands_cons h.fits.1 ht
        refine ⟨?_, by rw [hat.lo]; exact Nat.le_add_right _ _, _, hat.item⟩
        rw [hat.lo]
        exact h.fits.1 t ht
      · obtain ⟨hfits, hle, hstands⟩ := ih h.behind ht
        rw [h.byteLength_front] at hle
        exact ⟨hfits, by omega, hstands⟩

/-- A member of a row ends in it. -/
theorem hi_le_of_mem_items (h : e.Written rule pre row post) (ht : t ∈ row.items) :
  t.tree.span.hi ≤ byteLength pre + byteLength row.text
  := by
  induction row generalizing pre with
  | last s =>
      have ht : t ∈ s.item? := by simpa [Row.items] using ht
      have := (slotAt h.stands h.fits ht).stop
      rw [Row.text]
      omega
  | cons s c others ih =>
      rw [h.byteLength_cons]
      rw [Row.items, List.mem_append] at ht
      obtain ht | ht := ht
      · have ht : t ∈ s.item? := by simpa using ht
        have := (slotAt h.stands_cons h.fits.1 ht).stop
        omega
      · have := ih h.behind ht
        rw [h.byteLength_front] at this
        omega

/-- The comments in a slot stand beside its member. -/
theorem SlotAt.comments_apart {tail : List Char} {k : Source.Comment} (h : e.SlotAt pos s t tail)
    (ht : s.item? = some t) (hk : k ∈ s.comments pos) :
  k.span.hi ≤ t.tree.span.lo ∨ t.tree.span.hi ≤ k.span.lo
  := by
  rw [h.comments_eq ht] at hk
  obtain hk | hk := List.mem_append.mp hk
  · have := fillersComments_bounds hk
    have := h.lo
    exact .inl (by omega)
  · exact .inr (fillersComments_bounds hk).1

/-- The comments in a row stand beside its members. -/
theorem comments_apart {k : Source.Comment} (h : e.Written rule pre row post)
    (hk : k ∈ row.comments (byteLength pre)) (ht : t ∈ row.items) :
  k.span.hi ≤ t.tree.span.lo ∨ t.tree.span.hi ≤ k.span.lo
  := by
  induction row generalizing pre with
  | last s =>
      have ht : t ∈ s.item? := by simpa [Row.items] using ht
      exact (slotAt h.stands h.fits ht).comments_apart ht hk
  | cons s c others ih =>
      rw [Row.items, List.mem_append, Option.mem_toList] at ht
      have hrest := @ih (pre ++ (s.text ++ [c])) h.behind
      rw [h.byteLength_front] at hrest
      obtain hk | hk := List.mem_append.mp hk
      · obtain ht | ht := ht
        · exact (slotAt h.stands_cons h.fits.1 ht).comments_apart ht hk
        · have := (stands_item h.behind ht).2.1
          have := (Slot.comments_bounds hk).2.2
          rw [h.byteLength_front] at *
          exact .inl (by omega)
      · obtain ht | ht := ht
        · have := (slotAt h.stands_cons h.fits.1 ht).stop
          have := (Row.comments_bounds hk).1
          exact .inr (by omega)
        · exact hrest hk ht

/-- The members of a row end one after the other. -/
theorem pairwise_trees (h : e.Written rule pre row post) :
  row.trees.Pairwise fun t u => t.span.hi ≤ u.span.hi
  := by
  induction row generalizing pre with
  | last s =>
      rw [Row.trees_last]
      cases s.item? <;> simp
  | cons s c others ih =>
      rw [Row.trees_cons]
      cases ht : s.item? with
      | none => simpa using ih h.behind
      | some t =>
          rw [Option.map_some, Option.toList_some, List.singleton_append]
          refine List.pairwise_cons.mpr ⟨?_, ih h.behind⟩
          intro u hu
          obtain ⟨v, hv, rfl⟩ := List.mem_map.mp hu
          have hstop := (slotAt h.stands_cons h.fits.1 ht).stop
          obtain ⟨hfits, hle, -⟩ := stands_item h.behind hv
          have hspan := congrArg Span.hi hfits.span
          rw [h.byteLength_front] at hle
          simp only at hspan
          omega

/-- The separator that goes with the members behind it stands behind every member that stays. -/
theorem hi_le_of_mem_looseSeparator (h : e.Written rule pre row post) (ht : t ∈ row.items)
    (hstays : e.excluded t.tree.span = false)
    (hedit : edit ∈ (e.looseSeparator rule.separators (e.lastKept? row.trees)).edits) :
  t.tree.span.hi ≤ edit.lo
  := by
  obtain ⟨span, sep, hkept, hsep, rfl⟩ := exists_of_mem_looseSeparator hedit
  obtain ⟨k, hlast, rfl⟩ := Option.map_eq_some_iff.mp hkept
  obtain ⟨init, hinit⟩ := List.getLast?_eq_some_iff.mp hlast
  have hkeeps : t.tree ∈ row.trees.filter fun t => !e.goesOrHole t := by
    refine List.mem_filter.mpr ⟨List.mem_map.mpr ⟨t, ht, rfl⟩, ?_⟩
    simp [goesOrHole, hstays, (stands_item h ht).1.hole]
  have hsorted := (pairwise_trees h).filter fun t => !e.goesOrHole t
  have hle : t.tree.span.hi ≤ k.span.hi := by
    rw [hinit] at hkeeps hsorted
    obtain hfront | hlast := List.mem_append.mp hkeeps
    · exact (List.pairwise_append.mp hsorted).2.2 _ hfront k (List.mem_singleton_self k)
    · rw [List.mem_singleton.mp hlast]
  have hk : k ∈ row.trees := by
    have : k ∈ row.trees.filter fun t => !e.goesOrHole t := by rw [hinit]; simp
    exact (List.mem_filter.mp this).1
  obtain ⟨k', hk', rfl⟩ := List.mem_map.mp hk
  obtain ⟨hfits, -, tail, htail⟩ := stands_item h hk'
  have hboundary : Boundary e.text k'.tree.span.hi := by
    rw [hfits.span]
    exact htail.append.boundary
  exact Nat.le_trans hle (boundary_separator hboundary hsep).1

/-! ### What is deleted of a row -/

/-- What is deleted of a separated series takes out something of the row it is written down as. -/
theorem proper_of_mem_visitSeparated (h : e.Written rule pre row post)
    (hedit : edit ∈
      (e.visitSeparated rule.separators true (e.lastKept? row.trees) row.trees).edits) :
  edit ∈ e.rowEdits (byteLength pre) row ∧ edit.Proper e.text ∧ byteLength pre ≤ edit.lo ∧
    edit.hi ≤ byteLength pre + byteLength row.text
  := by
  have hrow : edit ∈ e.rowEdits (byteLength pre) row := by
    rw [mem_rowEdits_iff h, looseEdits]
    obtain hmember | ⟨hlast, hloose⟩ := (mem_visitSeparated_iff (isHole_of_fitsRow h.fits)).mp hedit
    · exact .inl hmember
    · rw [if_pos hlast]
      exact .inr hloose
  exact ⟨hrow, proper_of_mem_rowEdits h hrow⟩

theorem mem_visitSeparated_of_mem_rowEdits (h : e.Written rule pre row post)
    (hedit : edit ∈ e.rowEdits (byteLength pre) row) :
  edit ∈ (e.visitSeparated rule.separators true (e.lastKept? row.trees) row.trees).edits
  := by
  rw [mem_rowEdits_iff h, looseEdits] at hedit
  rw [mem_visitSeparated_iff (isHole_of_fitsRow h.fits)]
  obtain hmember | hloose := hedit
  · exact .inl hmember
  · split at hloose
    · next hlast => exact .inr ⟨hlast, hloose⟩
    · simp at hloose

/-! ### What is left of a member -/

theorem visitMember_of_stays (hhole : isHole t.tree = false)
    (hstays : e.excluded t.tree.span = false) :
  e.visitMember separators t.tree = e.visit "null" t.tree
  := by
  rw [visitMember, hhole, hstays, if_neg Bool.false_ne_true, if_neg Bool.false_ne_true]

theorem mem_slotEdits_of_visitMember (tail : Bool) (h : e.Written rule pre (.cons s c others) post)
    (ht : t ∈ s.item?) (hedit : edit ∈ (e.visitMember rule.separators t.tree).edits) :
  edit ∈ e.slotEdits (byteLength pre + byteLength s.text) tail s
  := by
  have hsep := h.separatorAfter_cons ht
  have hhole := (h.fits.1 t ht).hole
  rw [Option.mem_def] at ht
  rw [visitMember, hhole] at hedit
  rw [slotEdits, ht]
  cases hgoes : e.excluded t.tree.span with
  | true => simpa [hgoes, goneWithSeparator, hsep, gone] using hedit
  | false =>
      simp only [hgoes, Bool.false_eq_true, if_false, List.mem_append] at hedit ⊢
      exact .inl hedit

theorem filter_covers_eq_nil (h : ∀ d ∈ edits, d.hi ≤ pos ∨ pos < d.lo) :
  edits.filter (fun d => decide (d.Covers pos)) = []
  := by
  rw [List.filter_eq_nil_iff]
  intro d hd hcovers
  obtain ⟨hcovers, hcovers'⟩ : d.Covers pos := of_decide_eq_true hcovers
  have := h d hd
  omega

/-- Only what is deleted of a member and of those behind it takes out a byte that the separator of
the last one that stays is behind.  -/
theorem filter_covers_cons (u : Tree)
    (hloose : ∀ d ∈ (e.looseSeparator separators kept).edits, pos < d.lo) :
  (e.visitSeparated separators true kept (u :: items)).edits.filter (fun d => decide (d.Covers pos))
    = (e.visitMember separators u).edits.filter (fun d => decide (d.Covers pos))
      ++ (e.visitSeparated separators true kept items).edits.filter fun d => decide (d.Covers pos)
  := by
  obtain ⟨loose, hedits, hloose_eq⟩ := exists_edits_visitSeparated e separators true kept u items
  have hnil : loose.filter (fun d => decide (d.Covers pos)) = [] := by
    obtain rfl | ⟨-, rfl⟩ := hloose_eq
    · rfl
    · exact filter_covers_eq_nil fun d hd => .inr (hloose d hd)
  rw [hedits, List.filter_append, List.filter_append, hnil, List.append_nil]

/-- Of all that is deleted of a row only what is deleted of a member that stays takes out something
of it. -/
theorem filter_covers_visitSeparated (h : e.Written rule pre row post) (ht : t ∈ row.items)
    (hstays : e.excluded t.tree.span = false)
    (hloose : ∀ d ∈ (e.looseSeparator rule.separators kept).edits, t.tree.span.hi ≤ d.lo)
    (hlo : t.tree.span.lo ≤ pos) (hhi : pos < t.tree.span.hi) :
  (e.visitSeparated rule.separators true kept row.trees).edits.filter
      (fun d => decide (d.Covers pos))
    = (e.visit "null" t.tree).edits.filter fun d => decide (d.Covers pos)
  := by
  have hloose : ∀ d ∈ (e.looseSeparator rule.separators kept).edits, pos < d.lo :=
    fun d hd => Nat.lt_of_lt_of_le hhi (hloose d hd)
  induction row generalizing pre with
  | last s =>
      have ht : s.item? = some t := by simpa [Row.items] using ht
      rw [Row.trees_last, ht, Option.map_some, Option.toList_some, filter_covers_cons _ hloose,
        visitMember_of_stays (h.fits t ht).hole hstays]
      simp [visitSeparated, Found.none]
  | cons s c others ih =>
      rw [Row.items, List.mem_append] at ht
      cases hu : s.item? with
      | none =>
          rw [Row.trees_cons, hu]
          exact ih h.behind (by simpa [hu] using ht)
      | some u =>
          rw [Row.trees_cons, hu, Option.map_some, Option.toList_some, List.singleton_append,
            filter_covers_cons _ hloose]
          obtain ht | ht := ht
          · -- The member of the first slot.
            obtain rfl : t = u := by simpa [hu] using ht
            have hbehind : (e.visitSeparated rule.separators true kept others.trees).edits.filter
                (fun d => decide (d.Covers pos)) = [] := by
              apply filter_covers_eq_nil
              intro d hd
              obtain hmember | ⟨-, hd⟩ :=
                (mem_visitSeparated_iff (isHole_of_fitsRow h.behind.fits)).mp hd
              · have hd := (mem_rowEdits_iff h.behind).mpr (.inl hmember)
                have hle := (proper_of_mem_rowEdits h.behind hd).2.1
                have := (slotAt h.stands_cons h.fits.1 hu).stop
                rw [h.byteLength_front] at hle
                omega
              · exact .inr (hloose d hd)
            rw [hbehind, List.append_nil, visitMember_of_stays (h.fits.1 t hu).hole hstays]
          · -- A member of a slot behind it.
            have hfirst : (e.visitMember rule.separators u.tree).edits.filter
                (fun d => decide (d.Covers pos)) = [] := by
              apply filter_covers_eq_nil
              intro d hd
              have := (proper_of_mem_slotEdits h
                (mem_slotEdits_of_visitMember false h hu hd)).2.2
              have := (stands_item h.behind ht).2.1
              rw [h.byteLength_front] at this
              omega
            rw [hfirst, List.nil_append, ih h.behind ht]

/-- A member that nothing goes in is left as it is, when of the row goes what is deleted of it and
some of its comments.  -/
theorem text_of_remains {edits : List Edit} {t' : Item} (h : e.Written rule pre row post)
    (ht : t ∈ row.items) (hstays : e.excluded t.tree.span = false)
    (hnil : (e.visit "null" t.tree).edits = []) (hproper : ∀ d ∈ edits, d.Proper e.text)
    (hout : ∀ d ∈ edits, d.Beside (byteLength pre) (byteLength pre + byteLength row.text)
      (row.comments (byteLength pre)) ∨ d ∈ e.rowEdits (byteLength pre) row)
    (hremains : e.Remains edits t' t) :
  t'.text = t.text
  := by
  obtain ⟨hfits, hlo, tail, htail⟩ := stands_item h ht
  have hhi : t.tree.span.hi = t.tree.span.lo + byteLength t.text := congrArg Span.hi hfits.span
  have hend := hi_le_of_mem_items h ht
  rw [hremains.text, hhi]
  apply Edit.standing_of_ink hproper htail
  · rintro d hd pos hle hlt ⟨hcovers, hcovers'⟩
    obtain (hapart | hapart | ⟨k, hk, rfl⟩) | hmem := hout d hd
    · omega
    · omega
    · have := comments_apart h hk ht
      simp only at hcovers hcovers'
      omega
    · have hnone := filter_covers_visitSeparated h ht hstays
        (fun d hd => hi_le_of_mem_looseSeparator h ht hstays hd) hle (by omega)
      rw [hnil, List.filter_nil, List.filter_eq_nil_iff] at hnone
      exact hnone d (mem_visitSeparated_of_mem_rowEdits h hmem) (decide_eq_true ⟨hcovers, hcovers'⟩)
  · exact hfits.first
  · obtain ⟨c, hc, hink⟩ := hfits.last
    exact ⟨c, hc, .inl hink⟩

/-- What is left of a member that stays: the member as it is if nothing goes in it, and what is left
of it when only that goes which goes in it, but for blanks.  -/
structure Keeps (e : Elision) (t' t : Item) : Prop where
  tree : t'.tree = t.tree
  whole : (e.visit "null" t.tree).edits = [] → t'.text = t.text
  inked : Text.inked t'.text = Text.inked
    (Edit.standing e.text (e.visit "null" t.tree).edits t.tree.span.lo t.tree.span.hi)

theorem keeps_of_remains {t' : Item} (h : e.Written rule pre row post) (ht : t ∈ row.items)
    (hstays : e.excluded t.tree.span = false)
    (hproper : ∀ d ∈ (e.visitSeparated rule.separators true (e.lastKept? row.trees) row.trees).edits,
      d.Proper e.text)
    (hremains : e.Remains
      (e.visitSeparated rule.separators true (e.lastKept? row.trees) row.trees).edits t' t) :
  e.Keeps t' t
  := by
  obtain ⟨hfits, -, tail, htail⟩ := stands_item h ht
  have hhi : t.tree.span.hi = t.tree.span.lo + byteLength t.text := congrArg Span.hi hfits.span
  have hfilter (pos : Nat) (hlo : t.tree.span.lo ≤ pos) (hpos : pos < t.tree.span.hi) :=
    filter_covers_visitSeparated h ht hstays
      (fun d hd => hi_le_of_mem_looseSeparator h ht hstays hd) hlo hpos
  refine ⟨hremains.tree, ?_, ?_⟩
  · intro hnil
    exact text_of_remains h ht hstays hnil hproper
      (fun d hd => .inr (proper_of_mem_visitSeparated h hd).1) hremains
  · have hboundary : Boundary e.text t.tree.span.hi := hhi ▸ htail.append.boundary
    have hinside := hfits.inside hstays
    rw [hremains.text, Edit.inked_standing htail.boundary hboundary
      (fun d hd => (hproper d hd).placed) (fun d hd => (hproper d hd).inked),
      Edit.inked_standing htail.boundary hboundary (fun d hd => (hinside d hd).1.placed)
      (fun d hd => (hinside d hd).1.inked)]
    congr 1
    apply List.flatMap_congr
    intro p hp
    obtain ⟨-, hlo, hpos⟩ := mem_locatedIn hp
    exact Edit.outputAt_congr (hfilter p.1 hlo hpos)

theorem forall₂_keeps {ts' ts : List Item} (h : e.Written rule pre row post)
    (hproper : ∀ d ∈ (e.visitSeparated rule.separators true (e.lastKept? row.trees) row.trees).edits,
      d.Proper e.text)
    (hremains : List.Forall₂ (e.Remains
      (e.visitSeparated rule.separators true (e.lastKept? row.trees) row.trees).edits) ts' ts)
    (hts : ∀ t ∈ ts, t ∈ row.items ∧ e.excluded t.tree.span = false) :
  List.Forall₂ e.Keeps ts' ts
  := by
  induction hremains with
  | nil => exact .nil
  | cons hremains _ ih =>
      obtain ⟨⟨ht, hstays⟩, hts⟩ := List.forall_mem_cons.mp hts
      exact .cons (keeps_of_remains h ht hstays hproper hremains) (ih hts)

/-! ### Lists without holes -/

/-- The slots of a list: one for each member, and an empty one if there is no member or a separator
stands behind the last one. -/
def listed (items : List Tree) (trailing : Bool) : List (Option Tree) :=
  if items.isEmpty then [none]
  else items.map some ++ if trailing then [none] else []

theorem listed_cons {t : Tree} (hne : items ≠ []) (trailing : Bool) :
  listed (t :: items) trailing = some t :: listed items trailing
  := by
  have hempty : items.isEmpty = false := by simpa using hne
  rw [listed, listed, hempty]
  rfl

theorem listed_ne_nil (items : List Tree) (trailing : Bool) :
  listed items trailing ≠ []
  := by
  cases items <;> simp [listed]

theorem filterMap_listed (items : List Tree) (trailing : Bool) :
  (listed items trailing).filterMap id = items
  := by
  cases items <;> cases trailing <;> simp [listed, List.filterMap_append]

/-- What is left of a list is a list, with a separator behind the last member if there was one and
the last member stays.  -/
theorem left_listed (hne : items ≠ []) (trailing : Bool) :
  e.left (listed items trailing)
    = listed (items.filter fun t => !e.excluded t.span)
        (trailing && !items.getLast?.any fun t => e.excluded t.span)
  := by
  induction items with
  | nil => contradiction
  | cons t items ih =>
      cases items with
      | nil =>
          cases trailing <;> cases hgoes : e.excluded t.span <;>
            simp [listed, left, tailGoes, Option.filter, hgoes]
      | cons u items =>
          have hne : u :: items ≠ [] := by simp
          rw [listed_cons hne, left_cons _ (listed_ne_nil _ _), filterMap_listed, ih hne,
            List.getLast?_cons_cons]
          generalize hkept : (u :: items).filter (fun t => !e.excluded t.span) = kept
          rw [List.filter_cons, hkept]
          cases hgoes : e.excluded t.span with
          | true => simp [hgoes]
          | false =>
              simp only [hgoes, Bool.not_false, if_true, Bool.false_eq_true, if_false]
              cases htail : e.tailGoes (u :: items) with
              | true =>
                  rw [tailGoes, Bool.and_eq_true] at htail
                  have hnil : kept = [] := by
                    rw [← hkept, List.filter_eq_nil_iff]
                    intro t ht
                    simpa using List.all_eq_true.mp htail.2 t ht
                  have hlast : (u :: items).getLast?.any (fun t => e.excluded t.span) = true := by
                    rw [List.getLast?_eq_some_getLast hne]
                    exact List.all_eq_true.mp htail.2 _ (List.getLast_mem _)
                  rw [hnil, hlast]
                  simp [listed]
              | false =>
                  have hne : kept ≠ [] := by
                    rw [tailGoes, List.isEmpty_cons, Bool.not_false, Bool.true_and] at htail
                    rw [← hkept, ne_eq, List.filter_eq_nil_iff]
                    intro hall
                    have : (u :: items).all (fun t => e.excluded t.span) = true := by
                      rw [List.all_eq_true]
                      intro t ht
                      simpa using hall t ht
                    rw [htail] at this
                    contradiction
                  rw [listed_cons hne]
                  simp

/-! ### Rows in a text -/

/-- Whether a text is what is left when members of a row go: a row of the members that stay, and
around it what stood around the row, but for blanks.  -/
structure Thins (e : Elision) (separators pre : List Char) (row : Row) (post code : List Char)
    (row' : Row) : Prop where
  around : ∃ front back lead trail, code = front ++ (row'.text ++ back) ∧ pre = front ++ lead ∧
    post = trail ++ back ∧ (∀ c ∈ lead, isBlank c = true ∧ c ≠ '\n') ∧
    ∀ c ∈ trail, isBlank c = true
  readable : row'.Readable separators
  items : List.Forall₂ e.Keeps row'.items
    (row.items.filter fun t => !e.excluded t.tree.span)

/-- What is left of a text when what is deleted of a row goes. -/
theorem exists_row_applyAll {text : String} (htext : e.text = text.toList)
    (h : e.Written rule pre row post) :
  ∃ row', e.Thins rule.separators pre row post
      (Edit.applyAll text (e.visitSeparated rule.separators true (e.lastKept? row.trees)
        row.trees).edits).toList row' ∧
    row'.places = e.left row.places
  := by
  have hrow (edit : Edit)
      (hedit : edit ∈ (e.visitSeparated rule.separators true (e.lastKept? row.trees)
        row.trees).edits) := proper_of_mem_visitSeparated h hedit
  generalize hedits : (e.visitSeparated rule.separators true (e.lastKept? row.trees)
    row.trees).edits = edits at *
  have hproper : ∀ edit ∈ edits, edit.Proper e.text := fun edit hedit => (hrow edit hedit).2.1
  have hstands := h.stands
  obtain ⟨row', hrow', hleft⟩ := exists_standing_row hproper h
    (fun edit hedit => hedits ▸ mem_visitSeparated_of_mem_rowEdits h hedit)
    (fun edit hedit => .inr (hrow edit hedit).1)
  have hend : Boundary e.text (byteLength e.text) := ⟨[], e.text, by simp⟩
  have hlength : byteLength pre + byteLength row.text ≤ byteLength e.text :=
    hstands.append.boundary.le_byteLength
  obtain ⟨front, lead, hpre, -, hlead, hfront, -⟩ := Edit.standing_of_untouched hproper
    (fun edit hedit pos hle hlt =>
      Edit.not_covers_of_apart (.inr (hrow edit hedit).2.2.1) hle hlt)
    (Stands.zero e.text).boundary hstands.boundary (Nat.zero_le _)
  obtain ⟨trail, back, hpost, htrail, -, -, hback⟩ := Edit.standing_of_untouched hproper
    (fun edit hedit pos hle hlt =>
      Edit.not_covers_of_apart (.inl (hrow edit hedit).2.2.2) hle hlt)
    hstands.append.boundary hend hlength
  have hslice : slice 0 (byteLength pre) e.text = pre :=
    slice_of_stands (Stands.zero _) h.text (Nat.zero_add _).symm
  have hslice' : slice (byteLength pre + byteLength row.text) (byteLength e.text) e.text = post :=
    slice_of_stands hstands.append (List.append_nil _).symm hstands.append.add_byteLength.symm
  have hstart : ∀ m ∈ Edit.merge (sortBy Edit.precedes edits), m.hi ≤ 0 →
      (m.widen e.text).hi ≤ 0 := by
    intro m hm hle
    have := (Edit.proper_merge hproper m hm).lt
    omega
  rw [hfront hstart, List.nil_append, hslice] at hpre
  rw [hback fun edit hedit => (hrow edit hedit).2.2.2, List.append_nil, hslice'] at hpost
  use row'
  refine ⟨⟨⟨_, _, lead, trail, ?_, hpre, hpost, hlead, htrail⟩, hleft.readable, ?_⟩, hleft.places⟩
  · have hsplit := Edit.toList_applyAll_of_proper (htext ▸ hproper) (htext ▸ hstands.boundary)
      (htext ▸ hstands.append.boundary) (Nat.le_add_right _ _)
    rw [hsplit, ← htext, hrow', List.append_assoc]
  · subst hedits
    apply forall₂_keeps h hproper hleft.items
    intro t ht
    simpa using ht

/-- What is left of a separated list when members of it go, any of them: the members that stay, in
their order, with one separator between each two of them.  No separator stands in front of the first
one, one stands behind the last one if one stood at the end of the list and the last member of the
list stays, and none is left if no member stays.  -/
theorem exists_list_applyAll {text : String} {trailing : Bool} (htext : e.text = text.toList)
    (h : e.Written rule pre row post) (hne : row.trees ≠ [])
    (hplaces : row.places = listed row.trees trailing) :
  ∃ row', e.Thins rule.separators pre row post
      (Edit.applyAll text (e.visitSeparated rule.separators true (e.lastKept? row.trees)
        row.trees).edits).toList row' ∧
    row'.places = listed (row.trees.filter fun t => !e.excluded t.span)
      (trailing && !row.trees.getLast?.any fun t => e.excluded t.span)
  := by
  obtain ⟨row', hthins, hleft⟩ := exists_row_applyAll htext h
  use row', hthins
  rw [hleft, hplaces, left_listed hne]

/-- A name fits where it stands. -/
theorem fits_name (text : String) {cs : List Char} {span : Span}
    (hspan : span = ⟨pos, pos + byteLength cs⟩)
    (hfirst : ∃ c, cs.head? = some c ∧ isBlank c = false)
    (hlast : ∃ c, cs.getLast? = some c ∧ isBlank c = false) :
  e.Fits pos ⟨.node (.name text) span [], cs⟩
  := by
  refine ⟨hspan, rfl, hfirst, hlast, ?_⟩
  intro _ edit hedit
  simp [visit, visitAll, Found.none] at hedit

/-- The list `a, b, c,` with comments in it, of which the last two members go. -/
theorem exists_list_applyAll_two :
  let text := "[\n  a, // ,\n  b,\n  /* , */ c,\n]"
  let e : Elision :=
    { text := text.toList, starts := lineStarts text, ranges := [⟨3, 4⟩], directives := [],
      others := [] }
  let name (c : Char) (pos : Nat) : Item := ⟨.node (.name c.toString) ⟨pos, pos + 1⟩ [], [c]⟩
  let row : Row :=
    .cons ⟨[.blank '\n', .blank ' ', .blank ' '], some (name 'a' 4), []⟩ ','
    (.cons ⟨[.blank ' ', .line [' ', ','], .blank ' ', .blank ' '], some (name 'b' 14), []⟩ ','
    (.cons ⟨[.blank '\n', .blank ' ', .blank ' ', .block [' ', ',', ' '], .blank ' '],
      some (name 'c' 27), []⟩ ','
    (.last ⟨[.blank '\n'], none, []⟩)))
  e.Written .list ['['] row [']'] ∧ row.trees ≠ [] ∧ row.places = listed row.trees true ∧
    (row.trees.filter fun t => !e.excluded t.span) = [(name 'a' 4).tree] ∧
    ∃ row', e.Thins [','] ['['] row [']'] "[\n  a // ,\n  /* , */\n]".toList row' ∧
      row'.places = [some (name 'a' 4).tree]
  := by
  intro text e name row
  have hwritten : e.Written .list ['['] row [']'] := by
    constructor
    · decide
    · decide
    · refine ⟨?_, ?_, ?_, ?_⟩ <;> rintro t ⟨⟩
      · exact fits_name _ (by decide) ⟨'a', by decide⟩ ⟨'a', by decide⟩
      · exact fits_name _ (by decide) ⟨'b', by decide⟩ ⟨'b', by decide⟩
      · exact fits_name _ (by decide) ⟨'c', by decide⟩ ⟨'c', by decide⟩
    · rintro c cs ⟨⟩
      decide
  have hne : row.trees ≠ [] := by simp [row, Row.trees_cons]
  have hplaces : row.places = listed row.trees true := rfl
  have hexcluded : e.excluded ⟨4, 5⟩ = false ∧ e.excluded ⟨14, 15⟩ = true ∧
      e.excluded ⟨27, 28⟩ = true := by decide
  have htrees : row.trees = [(name 'a' 4).tree, (name 'b' 14).tree, (name 'c' 27).tree] := rfl
  have hkept : (row.trees.filter fun t => !e.excluded t.span) = [(name 'a' 4).tree] := by
    rw [htrees]
    simp [name, Tree.span, hexcluded]
  refine ⟨hwritten, hne, hplaces, hkept, ?_⟩
  have hedits : (e.visitSeparated Rule.list.separators true (e.lastKept? row.trees) row.trees).edits
      = [⟨14, 16, ""⟩, ⟨5, 6, ""⟩, ⟨27, 29, ""⟩, ⟨5, 6, ""⟩] := by decide
  have hcode : Edit.applyAll text [⟨14, 16, ""⟩, ⟨5, 6, ""⟩, ⟨27, 29, ""⟩, ⟨5, 6, ""⟩]
      = "[\n  a // ,\n  /* , */\n]" := by decide
  obtain ⟨row', hthins, hrow'⟩ := exists_list_applyAll rfl hwritten hne hplaces
  have hlast : (true && !row.trees.getLast?.any fun t => e.excluded t.span) = false := by decide
  rw [hkept, hlast] at hrow'
  rw [hedits, hcode] at hthins
  use row'
  exact ⟨hthins, hrow'⟩

end Elision

end Prune
