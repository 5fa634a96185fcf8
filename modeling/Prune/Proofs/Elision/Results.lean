import Prune.Proofs.Elision.Isolation

/-!
# What stands for elements

The text that stands for an element when all edits are carried out is what the element comes to by
the rule for elements one of whose tags goes (`Elision.result`), blanks apart: nothing of the edits
made elsewhere takes out something of it (`Elision.isolates_of_mem_visited`), and those made for it
are told character by character (`Elision.inked_visit`).
-/

namespace Prune

open Text Source

namespace Elision

/-- What is known of a tree that a walk goes through, and of the comments of the text. -/
structure Orderly (e : Elision) (comments : List Comment) (t : Tree) : Prop where
  laid : t.Laid e.text comments
  parted : t.Parted e.text comments
  ends : ∀ c ∈ comments, c.EndsLine e.text
  /-- The directives are comments of the text. -/
  directives : ∀ s ∈ e.directives, ∃ c ∈ comments, c.span = s ∧ (⟨s.lo, s.hi, ""⟩ : Edit).Placed e.text

variable {e : Elision} {root t : Tree} {comments : List Comment} {edit : Edit} {edits : List Edit}
  {r : String} {v w : String × Tree} {s : Span} {p : Nat × Char} {pos : Nat}

theorem Orderly.of_below (h : e.Orderly comments root) (ht : root.Below t) :
  e.Orderly comments t
  := ⟨h.laid.of_below ht, h.parted.of_below ht, h.ends, h.directives⟩

/-- An element starts and ends between characters. -/
theorem Orderly.placed (h : e.Orderly comments t) (ht : isVisited t = true) :
  t.Placed e.text
  := by
  obtain ⟨place, span, parts, rfl, -⟩ := exists_of_isVisited ht
  exact h.laid.placed (.frame .root rfl)

theorem Orderly.placed_of_mem_strips (h : e.Orderly comments t) (hedit : edit ∈ e.strips) :
  edit.Placed e.text ∧ edit.Inked e.text
  := by
  obtain ⟨s, hs, rfl⟩ := List.mem_map.mp hedit
  obtain ⟨-, -, -, hplaced⟩ := h.directives s hs
  exact ⟨hplaced, inked_deletion _ _ _⟩

/-! ### From one element to the next -/

theorem of_mem_next (h : w ∈ e.next r t) (hr : r ∈ replacements)
    (hchildren : Childlike t) :
  t.Below w.2 ∧ isVisited w.2 = true ∧ w.1 ∈ replacements
  := by
  obtain ⟨p, hp, hbelow⟩ := exists_part_of_mem_next h
  refine ⟨.of_part hp hbelow, ?_⟩
  unfold next at h
  split at h
  · simp at h
  · next child hfate =>
    obtain rfl := List.mem_singleton.mp h
    obtain ⟨hmem, hsurvives⟩ := below_child hfate
    exact ⟨hchildren t .root child hmem (isElement_of_survives hsurvives), hr⟩
  · obtain ⟨p, -, h⟩ := mem_nestedAll_iff.mp h
    exact (of_mem_nested h null_mem_replacements).2

/-- The edits made for an element take out nothing outside of it. -/
theorem within_of_mem_visit (h : e.Orderly comments t) (ht : isVisited t = true)
    (hr : r ∈ replacements) (hedit : edit ∈ (e.visit r t).edits) (hpos : edit.Covers pos) :
  t.span.Has pos
  := ((reasoned_visit r t .root hr edit hedit).reaches h.laid).within h.laid h.parted h.ends ht hpos

/-- The deletions around the child that takes the place of an element leave the child alone. -/
theorem avoids_of_mem_splice {outer inner : Span} (h : edit ∈ (splice outer inner).edits) :
  edit.Avoids inner
  := by
  simp only [splice, List.mem_cons, List.not_mem_nil, or_false] at h
  intro pos hpos hcovers
  obtain rfl | rfl := h
  · exact absurd hcovers.2 (Nat.not_lt.mpr hpos.1)
  · exact absurd hcovers.1 (Nat.not_le.mpr hpos.2)

theorem replacement_of_mem_splice {outer inner : Span} (h : edit ∈ (splice outer inner).edits) :
  edit.replacement = ""
  := by
  simp only [splice, List.mem_cons, List.not_mem_nil, or_false] at h
  obtain rfl | rfl := h
  · rfl
  · rfl

/-- What a walk makes of an element that stays. -/
theorem Orderly.cell_visitAll (h : e.Orderly comments t) (ht : isVisited t = true) :
  e.Cell comments t.Below (e.visitAll t.parts).edits (e.nestedAll t.parts)
  := by
  obtain ⟨place, span, parts, rfl, -⟩ := exists_of_isVisited ht
  refine .node h.parted fun p hp => ?_
  have hp := h.of_below (.part .root hp)
  exact cell_visit null_mem_replacements hp.laid hp.parted hp.ends

/-- Of all edits made for an element, only those made for the next one take out something of it. -/
theorem isolates_of_mem_next (h : e.Orderly comments t) (ht : isVisited t = true)
    (hw : w ∈ e.next r t) :
  e.Isolates (e.visit r t).edits w
  := by
  unfold next at hw
  split at hw
  · simp at hw
  · next child hfate =>
    obtain rfl := List.mem_singleton.mp hw
    rw [visit_of_collapses ht hfate, edits_append]
    have hself : e.Isolates (e.visit r child).edits (r, child) := ⟨[], [], by simp, by simp⟩
    exact hself.append_left fun edit hedit => avoids_of_mem_splice hedit
  · next hfate =>
    rw [visit_of_stays ht hfate]
    exact (h.cell_visitAll ht).isolates w hw

/-- What leaves alone an element leaves alone what is in it. -/
theorem Isolates.trans (h : e.Isolates edits v) (hw : e.Isolates (e.visit v.1 v.2).edits w)
    (hin : ∀ pos, w.2.span.Has pos → v.2.span.Has pos) :
  e.Isolates edits w
  := by
  obtain ⟨front, back, rfl, havoids⟩ := h
  have havoids' (edit : Edit) (hedit : edit ∈ front ++ back) : edit.Avoids w.2.span :=
    fun pos hpos => havoids edit hedit pos (hin pos hpos)
  refine (hw.append_left fun edit hedit => ?_).append_right fun edit hedit => ?_
  · exact havoids' edit (List.mem_append_left _ hedit)
  · exact havoids' edit (List.mem_append_right _ hedit)

theorem of_mem_visitedFrom (h : e.Orderly comments t) (ht : isVisited t = true)
    (hr : r ∈ replacements) (hv : v ∈ e.visitedFrom r t) :
  t.Below v.2 ∧ isVisited v.2 = true ∧ v.1 ∈ replacements ∧ e.Isolates (e.visit r t).edits v
  := by
  induction t using Source.Tree.induction generalizing r with
  | h t ih =>
      rw [visitedFrom_eq] at hv
      obtain rfl | hv := List.mem_cons.mp hv
      · exact ⟨.root, ht, hr, [], [], by simp, by simp⟩
      · obtain ⟨w, hw, hv⟩ := List.mem_flatMap.mp hv
        obtain ⟨hbelow, hvisited, hr'⟩ := of_mem_next hw hr h.parted.children
        have hw' := h.of_below hbelow
        obtain ⟨hbelow', hvisited', hr', hisolates⟩ :=
          ih w.2 (sizeOf_lt_of_mem_next hw) hw' hvisited hr' hv
        refine ⟨hbelow.trans hbelow', hvisited', hr', ?_⟩
        exact (isolates_of_mem_next h ht hw).trans hisolates
          ((hw'.parted.edged .root hvisited).2.1 _ hbelow')

/-- Of all edits that a walk makes only those made for an element that it comes to take out something
of it. -/
theorem isolates_of_mem_visited (h : e.Orderly comments root) (hv : v ∈ e.visited root) :
  root.Below v.2 ∧ isVisited v.2 = true ∧ v.1 ∈ replacements ∧
    e.Isolates (e.visit "null" root).edits v
  := by
  obtain ⟨w, hw, hv⟩ := List.mem_flatMap.mp hv
  obtain ⟨hbelow, hvisited, hr'⟩ := of_mem_nested hw null_mem_replacements
  have hw' := h.of_below hbelow
  obtain ⟨hbelow', hvisited', hr', hisolates⟩ := of_mem_visitedFrom hw' hvisited hr' hv
  refine ⟨hbelow.trans hbelow', hvisited', hr', ?_⟩
  exact ((cell_visit null_mem_replacements h.laid h.parted h.ends).isolates w hw).trans hisolates
    ((hw'.parted.edged .root hvisited).2.1 _ hbelow')

/-! ### Character by character -/

theorem Isolates.filter_covers (h : e.Isolates edits v) (hpos : v.2.span.Has pos) :
  edits.filter (fun edit => decide (edit.Covers pos))
    = (e.visit v.1 v.2).edits.filter fun edit => decide (edit.Covers pos)
  := by
  obtain ⟨front, back, rfl, havoids⟩ := h
  have hnone (others : List Edit) (hothers : others ⊆ front ++ back) :
      others.filter (fun edit => decide (edit.Covers pos)) = [] := by
    apply List.filter_eq_nil_iff.mpr
    intro edit hedit
    simpa using havoids edit (hothers hedit) pos hpos
  rw [List.filter_append, List.filter_append, hnone front (List.subset_append_left _ _),
    hnone back (List.subset_append_right _ _), List.nil_append, List.append_nil]

/-- What becomes of the characters of an element depends on the edits made for it and on the
directives alone. -/
theorem Isolates.flatMap_outputAt (h : e.Isolates edits v) (others : List Edit) :
  (locatedIn e.text v.2.span.lo v.2.span.hi).flatMap (Edit.outputAt (edits ++ others))
    = (locatedIn e.text v.2.span.lo v.2.span.hi).flatMap
        (Edit.outputAt ((e.visit v.1 v.2).edits ++ others))
  := by
  apply List.flatMap_congr
  intro p hp
  apply Edit.outputAt_congr
  rw [List.filter_append, List.filter_append, h.filter_covers (mem_locatedIn hp).2]

/-- No directive starts where an element does. -/
theorem Orderly.filter_strips (h : e.Orderly comments t) (hs : s.Edged e.text comments) :
  e.strips.filter (fun edit => decide (edit.Covers s.lo)) = []
  := by
  apply List.filter_eq_nil_iff.mpr
  intro edit hedit
  obtain ⟨span, hspan, rfl⟩ := List.mem_map.mp hedit
  obtain ⟨c, hc, rfl, -⟩ := h.directives span hspan
  rw [decide_eq_true_eq]
  exact (hs.free c hc).1

/-- Where no patch lies, the edits but those inside of patches are all edits. -/
theorem filter_outside {patches : List Edit}
    (hpatches : ∀ patch ∈ patches, ¬patch.Covers pos) :
  (patches ++ outside patches edits).filter (fun edit => decide (edit.Covers pos))
    = edits.filter fun edit => decide (edit.Covers pos)
  := by
  have hnone : patches.filter (fun edit => decide (edit.Covers pos)) = [] := by
    simpa [List.filter_eq_nil_iff] using hpatches
  rw [List.filter_append, hnone, List.nil_append, outside, List.filter_filter]
  apply List.filter_congr
  intro edit _
  rw [Bool.and_eq_left_iff_imp, decide_eq_true_eq, Bool.not_eq_true', ← Bool.not_eq_true,
    List.any_eq_true]
  rintro ⟨hlo, hhi⟩ ⟨patch, hpatch, hin⟩
  rw [Bool.and_eq_true, decide_eq_true_eq, decide_eq_true_eq] at hin
  exact hpatches patch hpatch ⟨Nat.le_trans hin.1 hlo, Nat.lt_of_lt_of_le hhi hin.2⟩

/-- An edit made for an element that takes out something lies inside of the element. -/
theorem inside_of_mem_visit (h : e.Orderly comments t) (ht : isVisited t = true)
    (hr : r ∈ replacements) (hedit : edit ∈ (e.visit r t).edits) (hpos : edit.Covers pos) :
  t.span.lo ≤ edit.lo ∧ edit.hi ≤ t.span.hi
  := by
  have hwithin : (⟨edit.lo, edit.hi⟩ : Span).Within t.span :=
    fun _ hpos => within_of_mem_visit h ht hr hedit hpos
  exact hwithin.le_and_le (Nat.lt_of_le_of_lt hpos.1 hpos.2)

variable {vs : List (String × Tree)}

/-- No edit outside of the patches for some elements takes out the first character of one. -/
theorem filter_outside_eq_nil (h : e.Orderly comments t) (hcell : e.Cell comments t.Below edits vs)
    (hv : v ∈ vs) (hr : v.1 ∈ replacements) :
  (outside (vs.map e.patch) edits).filter (fun edit => decide (edit.Covers v.2.span.lo)) = []
  := by
  obtain ⟨hbelow, hvisited, hedged⟩ := hcell.elements v hv
  apply List.filter_eq_nil_iff.mpr
  intro edit hedit hcovers
  obtain ⟨hedit, houtside⟩ := List.mem_filter.mp hedit
  -- the edit is made for the element, and so it lies inside of the patch
  have hmem : edit ∈ edits.filter fun edit => decide (edit.Covers v.2.span.lo) :=
    List.mem_filter.mpr ⟨hedit, hcovers⟩
  rw [(hcell.isolates v hv).filter_covers ⟨Nat.le_refl _, hedged.lt⟩] at hmem
  have hin := inside_of_mem_visit (h.of_below hbelow) hvisited hr (List.mem_filter.mp hmem).1
    (of_decide_eq_true hcovers)
  rw [Bool.not_eq_true', ← Bool.not_eq_true, List.any_eq_true] at houtside
  refine houtside ⟨e.patch v, List.mem_map_of_mem hv, ?_⟩
  rw [Bool.and_eq_true, decide_eq_true_eq, decide_eq_true_eq]
  exact hin

/-- Of the patches for some elements that stand apart, that for an element alone takes out the first
character of it. -/
theorem filter_map_patch (hapart : vs.Pairwise fun v w => v.2.span.Apart w.2.span) (hv : v ∈ vs)
    (hlt : v.2.span.lo < v.2.span.hi) :
  (vs.map e.patch).filter (fun edit => decide (edit.Covers v.2.span.lo)) = [e.patch v]
  := by
  have hstart : v.2.span.Has v.2.span.lo := ⟨Nat.le_refl _, hlt⟩
  obtain ⟨front, back, rfl⟩ := List.append_of_mem hv
  obtain ⟨-, hback, hfront⟩ := List.pairwise_append.mp hapart
  obtain ⟨hback, -⟩ := List.pairwise_cons.mp hback
  have hnone {ws : List (String × Tree)} (hws : ∀ w ∈ ws, ¬w.2.span.Has v.2.span.lo) :
      (ws.map e.patch).filter (fun edit => decide (edit.Covers v.2.span.lo)) = [] := by
    apply List.filter_eq_nil_iff.mpr
    intro edit hedit hcovers
    obtain ⟨w, hw, rfl⟩ := List.mem_map.mp hedit
    have hcovers : (e.patch w).Covers v.2.span.lo := of_decide_eq_true hcovers
    exact hws w hw hcovers
  have hself : decide ((e.patch v).Covers v.2.span.lo) = true := decide_eq_true hstart
  rw [List.map_append, List.map_cons, List.filter_append,
    hnone fun w hw hpos => hfront w hw v List.mem_cons_self _ hpos hstart, List.nil_append,
    List.filter_cons, if_pos hself, hnone fun w hw hpos => hback w hw _ hstart hpos]

/-- The edits that give what stands for an element that stays start and end between characters, and
put something only where no blank stands. -/
theorem Orderly.edits_inPlace (h : e.Orderly comments t) (ht : isVisited t = true)
    (hfate : e.fate t = .stays) :
  ∀ edit ∈ (e.nestedAll t.parts).map e.patch
      ++ outside ((e.nestedAll t.parts).map e.patch) (e.visitAll t.parts).edits ++ e.strips,
    edit.Placed e.text ∧ edit.Inked e.text
  := by
  have hcell := h.cell_visitAll ht
  intro edit hedit
  rw [List.append_assoc] at hedit
  obtain hedit | hedit := List.mem_append.mp hedit
  · obtain ⟨v, hv, rfl⟩ := List.mem_map.mp hedit
    obtain ⟨hbelow, hvisited, hedged⟩ := hcell.elements v hv
    have hplaced := (h.of_below hbelow).placed hvisited
    exact ⟨⟨hplaced.le, hplaced.lo, hplaced.hi⟩, hedged.inked _⟩
  · obtain hedit | hedit := List.mem_append.mp hedit
    · have hedit := (List.mem_filter.mp hedit).1
      refine ⟨?_, hcell.inked edit hedit⟩
      rw [← visit_of_stays (r := "null") ht hfate] at hedit
      exact (reasoned_visit "null" t .root null_mem_replacements edit hedit).placed h.laid
    · exact h.placed_of_mem_strips hedit

/-- What stands for an element that stays, if it is known what stands for those inside of it. -/
theorem inked_visit_of_stays (h : e.Orderly comments t) (ht : isVisited t = true)
    (hfate : e.fate t = .stays)
    (ih : ∀ v ∈ e.nestedAll t.parts,
      inked ((locatedIn e.text v.2.span.lo v.2.span.hi).flatMap
        (Edit.outputAt ((e.visit v.1 v.2).edits ++ e.strips))) = inked (e.result v.1 v.2).toList) :
  inked ((locatedIn e.text t.span.lo t.span.hi).flatMap
    (Edit.outputAt ((e.visit r t).edits ++ e.strips))) = inked (e.result r t).toList
  := by
  have hcell := h.cell_visitAll ht
  have hedits := h.edits_inPlace ht hfate
  obtain ⟨hedged, hencloses, -⟩ := h.parted.edged .root ht
  obtain ⟨-, -, hlo, hhi⟩ := h.placed ht
  rw [result_of_stays hfate, inPlace, String.toList_ofList, Edit.inked_standing hlo hhi
    (fun edit hedit => (hedits edit hedit).1) (fun edit hedit => (hedits edit hedit).2),
    visit_of_stays ht hfate]
  refine @Edit.inked_flatMap_congr _ _ _ _ _ ((e.nestedAll t.parts).map fun v =>
    (v.2.span.lo, v.2.span.hi)) ?_ ?_ ?_ ?_
  · refine List.pairwise_map.mpr (hcell.apart.imp_of_mem fun hv hw hapart => ?_)
    exact hapart.le_or_le (hcell.elements _ hv).2.2.lt (hcell.elements _ hw).2.2.lt
  · intro span hspan
    obtain ⟨v, hv, rfl⟩ := List.mem_map.mp hspan
    obtain ⟨hbelow, -, hedged'⟩ := hcell.elements v hv
    obtain ⟨hlo, hhi⟩ := (hencloses _ hbelow).le_and_le hedged'.lt
    exact ⟨hlo, Nat.le_of_lt hedged'.lt, hhi⟩
  · intro span hspan
    obtain ⟨v, hv, rfl⟩ := List.mem_map.mp hspan
    obtain ⟨hbelow, hvisited, hedged'⟩ := hcell.elements v hv
    obtain ⟨p, -, hp⟩ := mem_nestedAll_iff.mp hv
    have hr := (of_mem_nested hp null_mem_replacements).2.2
    rw [(hcell.isolates v hv).flatMap_outputAt, ih v hv,
      Edit.flatMap_outputAt_of_filter hedged'.first hedged'.lt rfl (Nat.le_refl _) (e := e.patch v)]
    · rfl
    · rw [List.filter_append, List.filter_append, filter_map_patch hcell.apart hv hedged'.lt,
        filter_outside_eq_nil h hcell hv hr, h.filter_strips hedged']
      rfl
  · intro p hp hout
    apply Edit.outputAt_congr
    rw [List.filter_append, List.filter_append _ e.strips, filter_outside]
    intro patch hpatch hcovers
    obtain ⟨v, hv, rfl⟩ := List.mem_map.mp hpatch
    exact hout _ (List.mem_map_of_mem hv) hcovers

/-- What stands for an element whose place a child takes is what stands for the child: what is around
the child goes. -/
theorem flatMap_visit_of_collapses {child : Tree} (h : e.Orderly comments t)
    (ht : isVisited t = true) (hr : r ∈ replacements) (hfate : e.fate t = .collapses child) :
  (locatedIn e.text t.span.lo t.span.hi).flatMap (Edit.outputAt ((e.visit r t).edits ++ e.strips))
    = (locatedIn e.text child.span.lo child.span.hi).flatMap
        (Edit.outputAt ((e.visit r child).edits ++ e.strips))
  := by
  have hmem : (r, child) ∈ e.next r t := by simp [next, hfate]
  obtain ⟨hbelow, hvisited, -⟩ : t.Below child ∧ isVisited child = true ∧ r ∈ replacements :=
    of_mem_next hmem hr h.parted.children
  obtain ⟨-, hlo, hhi⟩ : child.Placed e.text ∧ t.span.lo ≤ child.span.lo ∧
      child.span.hi ≤ t.span.hi := by
    obtain ⟨place, span, parts, rfl, -⟩ := exists_of_isVisited ht
    exact child_inside h.laid (below_child hfate).1 (below_child hfate).2
  have hchild := h.of_below hbelow
  have hlt := (hchild.parted.edged .root hvisited).1.lt
  have hisolates := isolates_of_mem_next h ht hmem
  -- only what starts in the child puts something in its place
  have hdeletions {lo hi : Nat} (hout : hi ≤ child.span.lo ∨ child.span.hi ≤ lo) :
      ∀ edit ∈ (e.visit r t).edits ++ e.strips, edit.Covers edit.lo → lo ≤ edit.lo → edit.lo < hi →
        edit.replacement = "" := by
    intro edit hedit hcovers hle hlt
    rw [visit_of_collapses ht hfate, edits_append] at hedit
    obtain hedit | hedit := List.mem_append.mp hedit
    · obtain hedit | hedit := List.mem_append.mp hedit
      · exact replacement_of_mem_splice hedit
      · obtain ⟨hge, hlt'⟩ := within_of_mem_visit hchild hvisited hr hedit hcovers
        exact absurd hout (by omega)
    · obtain ⟨s, -, rfl⟩ := List.mem_map.mp hedit
      rfl
  have hfront : (locatedIn e.text t.span.lo child.span.lo).flatMap
      (Edit.outputAt ((e.visit r t).edits ++ e.strips)) = [] := by
    refine Edit.flatMap_outputAt_eq_nil ?_ ?_ (hdeletions (.inl (Nat.le_refl _)))
      (e := ⟨t.span.lo, child.span.lo, ""⟩)
    · simp [visit_of_collapses ht hfate, splice]
    · exact fun pos hlo hhi => ⟨hlo, hhi⟩
  have hback : (locatedIn e.text child.span.hi t.span.hi).flatMap
      (Edit.outputAt ((e.visit r t).edits ++ e.strips)) = [] := by
    refine Edit.flatMap_outputAt_eq_nil ?_ ?_ (hdeletions (.inr (Nat.le_refl _)))
      (e := ⟨child.span.hi, t.span.hi, ""⟩)
    · simp [visit_of_collapses ht hfate, splice]
    · exact fun pos hlo hhi => ⟨hlo, hhi⟩
  rw [locatedIn_append (Nat.le_trans hlo (Nat.le_of_lt hlt)) hhi,
    locatedIn_append hlo (Nat.le_of_lt hlt), List.flatMap_append, List.flatMap_append, hfront, hback,
    List.nil_append, List.append_nil]
  exact hisolates.flatMap_outputAt e.strips

/-- What stands for an element, as far as the edits made for it and the directives go. -/
theorem inked_visit (h : e.Orderly comments t) (ht : isVisited t = true) (hr : r ∈ replacements) :
  inked ((locatedIn e.text t.span.lo t.span.hi).flatMap
    (Edit.outputAt ((e.visit r t).edits ++ e.strips))) = inked (e.result r t).toList
  := by
  induction t using Source.Tree.induction generalizing r with
  | h t ih =>
      cases hfate : e.fate t with
      | goes =>
          obtain ⟨hedged, -⟩ := h.parted.edged .root ht
          rw [visit_of_goes ht hfate, result_of_goes hfate]
          congr 1
          refine Edit.flatMap_outputAt_of_filter hedged.first hedged.lt rfl (Nat.le_refl _) ?_
            (e := ⟨t.span.lo, t.span.hi, r⟩)
          rw [List.filter_append, h.filter_strips hedged]
          simp [gone, Edit.Covers, hedged.lt]
      | collapses child =>
          have hmem : (r, child) ∈ e.next r t := by simp [next, hfate]
          obtain ⟨hbelow, hvisited, hr'⟩ := of_mem_next hmem hr h.parted.children
          rw [flatMap_visit_of_collapses h ht hr hfate, result_of_collapses hfate]
          exact ih child (sizeOf_lt_of_mem_next hmem) (h.of_below hbelow) hvisited hr
      | stays =>
          refine inked_visit_of_stays h ht hfate fun v hv => ?_
          have hmem : v ∈ e.next r t := by simpa [next, hfate] using hv
          obtain ⟨hbelow, hvisited, hr'⟩ := of_mem_next hmem hr h.parted.children
          exact ih v.2 (sizeOf_lt_of_mem_next hmem) (h.of_below hbelow) hvisited hr'

/-! ### The whole elision -/

/-- What stands for an element that a walk comes to when all edits are carried out. -/
theorem inked_standing_of_mem_visited (h : e.Orderly comments root) (hv : v ∈ e.visited root) :
  inked (Edit.standing e.text (e.edits root) v.2.span.lo v.2.span.hi)
    = inked (e.result v.1 v.2).toList
  := by
  obtain ⟨hbelow, hvisited, hr, hisolates⟩ := isolates_of_mem_visited h hv
  have hplaced := (h.of_below hbelow).placed hvisited
  have hcell := cell_visit null_mem_replacements h.laid h.parted h.ends
  have hedits : ∀ edit ∈ e.edits root, edit.Placed e.text ∧ edit.Inked e.text := by
    intro edit hedit
    obtain hedit | hedit := List.mem_append.mp hedit
    · exact ⟨(reasoned_visit "null" root .root null_mem_replacements edit hedit).placed h.laid,
        hcell.inked edit hedit⟩
    · exact h.placed_of_mem_strips hedit
  rw [Edit.inked_standing hplaced.lo hplaced.hi (fun edit hedit => (hedits edit hedit).1)
    fun edit hedit => (hedits edit hedit).2, edits, hisolates.flatMap_outputAt]
  exact inked_visit (h.of_below hbelow) hvisited hr

end Elision

end Prune
