import Mathlib.Data.List.Basic
import Prune.Proofs.Elision.RowComments

/-!
# Rows with members taken out

What is left of a row when members of it are deleted is a row again (`Elision.exists_standing_row`),
and what its slots hold can be told from those of the row alone (`Elision.left`): a slot of a member
that goes becomes a part of the slot behind it, and if all members behind one go, the slot of this
one takes in the slot behind it.
-/

namespace Prune

open Text
open Source (Tree Span Rule)

namespace Text

variable {cs front rest back : List Char}

/-- A text that starts with ink does not start with blanks. -/
theorem eq_nil_of_ink_first (h : cs = front ++ rest) (hfront : ∀ c ∈ front, isBlank c = true)
    (hfirst : ∃ c, cs.head? = some c ∧ isBlank c = false) :
  front = []
  := by
  obtain ⟨c, hc, hink⟩ := hfirst
  cases front with
  | nil => rfl
  | cons d front =>
      obtain rfl : d = c := by simpa [h] using hc
      simp [hfront d List.mem_cons_self] at hink

/-- A text that ends with ink or a line feed does not end with blanks of its last line. -/
theorem eq_nil_of_ink_last (h : cs = rest ++ back)
    (hback : ∀ c ∈ back, isBlank c = true ∧ c ≠ '\n')
    (hlast : ∃ c, cs.getLast? = some c ∧ (isBlank c = false ∨ c = '\n')) :
  back = []
  := by
  obtain ⟨c, hc, hink⟩ := hlast
  obtain rfl | ⟨init, d, rfl⟩ := List.eq_nil_or_concat back
  · rfl
  · obtain rfl : d = c := by simpa [h] using hc
    have := hback d (by simp)
    simp_all

end Text

/-! ### Fillers that are left -/

/-- Whether fillers are some of others, or line feeds. -/
def Remnants (gs fs : List Filler) : Prop :=
  ∀ g ∈ gs, g ∈ fs ∨ g = .blank '\n'

namespace Remnants

variable {fs gs fs' gs' : List Filler}

theorem nil :
  Remnants [] fs
  := List.forall_mem_nil _

theorem mono (h : Remnants gs fs) (hsubset : fs ⊆ fs') :
  Remnants gs fs'
  := fun g hg => (h g hg).imp_left fun hg => hsubset hg

theorem append (h : Remnants gs fs) (h' : Remnants gs' fs') :
  Remnants (gs ++ gs') (fs ++ fs')
  := by
  intro g hg
  obtain hg | hg := List.mem_append.mp hg
  · exact (h g hg).imp_left (List.mem_append_left _)
  · exact (h' g hg).imp_left (List.mem_append_right _)

theorem readable (h : Remnants gs fs) (hfs : ∀ f ∈ fs, f.Readable) :
  ∀ g ∈ gs, g.Readable
  := by
  intro g hg
  obtain hg | rfl := h g hg
  · exact hfs g hg
  · rfl

end Remnants

namespace Edit

variable {text mid rest : List Char} {edits : List Edit} {e : Edit} {lo hi pos : Nat}

/-- Whether an edit stands apart from a part of a text, or deletes one of some comments. -/
def Beside (e : Edit) (lo hi : Nat) (comments : List Source.Comment) : Prop :=
  e.hi ≤ lo ∨ hi ≤ e.lo ∨ ∃ c ∈ comments, e = ⟨c.span.lo, c.span.hi, ""⟩

/-- An edit takes out nothing of what it ends before or starts behind. -/
theorem not_covers_of_apart (h : e.hi ≤ lo ∨ hi ≤ e.lo) (hle : lo ≤ pos) (hlt : pos < hi) :
  ¬e.Covers pos
  := by
  rintro ⟨hcovers, hcovers'⟩
  omega

/-- A part of a text that no edit takes a byte of stays as it is if it starts with ink and does not
end with blanks of its last line.  -/
theorem standing_of_ink (hedits : ∀ e ∈ edits, e.Proper text) (hmid : Stands text (mid ++ rest) lo)
    (hnot : ∀ e ∈ edits, ∀ pos, lo ≤ pos → pos < lo + byteLength mid → ¬e.Covers pos)
    (hfirst : ∃ c, mid.head? = some c ∧ isBlank c = false)
    (hlast : ∃ c, mid.getLast? = some c ∧ (isBlank c = false ∨ c = '\n')) :
  standing text edits lo (lo + byteLength mid) = mid
  := by
  obtain ⟨front, back, hsplit, hfront, hback, -⟩ :=
    standing_of_untouched hedits hnot hmid.boundary hmid.append.boundary (Nat.le_add_right _ _)
  rw [slice_of_stands hmid rfl rfl] at hsplit
  have hback_nil := eq_nil_of_ink_last hsplit hback hlast
  have hfront_nil := eq_nil_of_ink_first (hsplit.trans (List.append_assoc _ _ _)) hfront hfirst
  rw [hfront_nil, hback_nil, List.nil_append, List.append_nil] at hsplit
  exact hsplit.symm

/-- Nothing is left of what a deletion takes out if no edit puts anything in its place. -/
theorem standing_of_deletion (hedits : ∀ e ∈ edits, e.Proper text)
    (hmem : ⟨lo, hi, ""⟩ ∈ edits)
    (hdeletions : ∀ e ∈ edits, e.replacement = "" ∨ e.lo < lo ∨ hi ≤ e.lo) :
  standing text edits lo hi = []
  := by
  apply standing_of_covered hedits
  · exact fun pos hle hlt => ⟨_, hmem, hle, hlt⟩
  · exact fun e he hr => (hdeletions e he).resolve_left hr

/-- Of a filler that no edit takes a byte of nothing goes if it is a comment. -/
theorem exists_standing_untouched {f : Filler} (hedits : ∀ e ∈ edits, e.Proper text)
    (hf : Stands text (f.text ++ rest) lo)
    (hnot : ∀ e ∈ edits, ∀ pos, lo ≤ pos → pos < lo + byteLength f.text → ¬e.Covers pos) :
  ∃ gs, standing text edits lo (lo + byteLength f.text) = fillersText gs ∧ gs.Sublist [f]
  := by
  have hwhole (hfirst : ∃ c, f.text.head? = some c ∧ isBlank c = false)
      (hlast : ∃ c, f.text.getLast? = some c ∧ (isBlank c = false ∨ c = '\n')) :
      ∃ gs, standing text edits lo (lo + byteLength f.text) = fillersText gs ∧ gs.Sublist [f] := by
    use [f]
    rw [standing_of_ink hedits hf hnot hfirst hlast]
    simp
  cases f with
  | blank c =>
      obtain ⟨front, back, hsplit, -⟩ := standing_of_untouched hedits hnot hf.boundary
        hf.append.boundary (Nat.le_add_right _ _)
      rw [slice_of_stands hf rfl rfl] at hsplit
      have hsub : (standing text edits lo (lo + byteLength (Filler.blank c).text)).Sublist [c] := by
        change [c] = _ at hsplit
        rw [hsplit, List.append_assoc]
        exact (List.sublist_append_left _ back).trans (List.sublist_append_right front _)
      obtain hnil | hsingle := List.sublist_singleton.mp hsub
      · use []
        exact ⟨hnil, List.nil_sublist _⟩
      · use [.blank c]
        exact ⟨hsingle, List.Sublist.refl _⟩
  | line body =>
      apply hwhole
      · exact ⟨'/', rfl, rfl⟩
      · exact ⟨'\n', List.getLast?_eq_some_iff.mpr ⟨'/' :: '/' :: body, rfl⟩, .inr rfl⟩
  | block body =>
      apply hwhole
      · exact ⟨'/', rfl, rfl⟩
      · have hlast : (Filler.block body).text = '/' :: '*' :: (body ++ ['*']) ++ ['/'] := by
          simp [Filler.text]
        exact ⟨'/', List.getLast?_eq_some_iff.mpr ⟨_, hlast⟩, .inl rfl⟩

/-- Of a comment that is deleted only the line feed may be left that ends it. -/
theorem exists_standing_deleted {f : Filler} {c : Source.Comment}
    (hedits : ∀ e ∈ edits, e.Proper text) (hf : Stands text (f.text ++ rest) lo)
    (hc : f.comment? lo = some c) (hmem : ⟨c.span.lo, c.span.hi, ""⟩ ∈ edits)
    (hapart : ∀ e ∈ edits, e.hi ≤ lo ∨ lo + byteLength f.text ≤ e.lo ∨
      e = ⟨c.span.lo, c.span.hi, ""⟩) :
  ∃ gs, standing text edits lo (lo + byteLength f.text) = fillersText gs ∧ Remnants gs [f]
  := by
  have hgone : standing text edits c.span.lo c.span.hi = [] := by
    have hbounds := Filler.comment_bounds hc
    apply standing_of_deletion hedits hmem
    intro e he
    have := (hedits e he).lt
    obtain hle | hle | rfl := hapart e he
    · exact .inr (.inl (by omega))
    · exact .inr (.inr (by omega))
    · exact .inl rfl
  cases f with
  | blank c => simp [Filler.comment?] at hc
  | line body =>
      -- the line feed is no part of the comment
      obtain rfl := Option.some.inj hc
      simp only [Filler.commentSpan_line] at *
      have hsplit : (Filler.line body).text ++ rest
          = ('/' :: '/' :: body) ++ ((Filler.blank '\n').text ++ rest) := by simp [Filler.text]
      have hlength : byteLength (Filler.line body).text
          = byteLength ('/' :: '/' :: body) + byteLength (Filler.blank '\n').text := by
        rw [← byteLength_append]
        simp [Filler.text]
      rw [hsplit] at hf
      obtain ⟨gs, hgs, hsub⟩ := exists_standing_untouched hedits hf.append
        fun e he pos hle hlt hcovers => by
          rw [hlength] at hapart
          obtain ⟨hcovers, hcovers'⟩ := hcovers
          obtain hle' | hle' | rfl := hapart e he
          · omega
          · omega
          · exact Nat.not_lt.mpr hle hcovers'
      use gs
      constructor
      · rw [hlength, ← Nat.add_assoc, standing_append (fun e he => (hedits e he).placed) hf.boundary
          hf.append.boundary hf.append.append.boundary (Nat.le_add_right _ _)
          (Nat.le_add_right _ _), hgs, hgone, List.nil_append]
      · exact fun g hg => .inr (List.mem_singleton.mp (hsub.subset hg))
  | block body =>
      obtain rfl := Option.some.inj hc
      simp only [Filler.commentSpan_block] at hgone
      use []
      exact ⟨hgone, .nil⟩

/-- What is left of a filler that all edits stand apart from but the one that deletes it. -/
theorem exists_standing_filler {f : Filler} (hedits : ∀ e ∈ edits, e.Proper text)
    (hf : Stands text (f.text ++ rest) lo)
    (hapart : ∀ e ∈ edits, e.Beside lo (lo + byteLength f.text) (f.comment? lo).toList) :
  ∃ gs, standing text edits lo (lo + byteLength f.text) = fillersText gs ∧ Remnants gs [f]
  := by
  by_cases hdeleted : ∃ c ∈ f.comment? lo, ⟨c.span.lo, c.span.hi, ""⟩ ∈ edits
  · obtain ⟨c, hc, hmem⟩ := hdeleted
    apply exists_standing_deleted hedits hf hc hmem
    intro e he
    simpa [Beside, Option.mem_def.mp hc] using hapart e he
  · obtain ⟨gs, hgs, hsub⟩ := exists_standing_untouched hedits hf fun e he pos hle hlt => by
      obtain h | h | ⟨c, hc, rfl⟩ := hapart e he
      · exact not_covers_of_apart (.inl h) hle hlt
      · exact not_covers_of_apart (.inr h) hle hlt
      · exact absurd ⟨c, by simpa using hc, he⟩ hdeleted
    use gs, hgs
    exact fun g hg => .inl (hsub.subset hg)

/-- What is left of fillers that all edits stand apart from but those that delete some of them. -/
theorem exists_standing_fillers {fs : List Filler} (hedits : ∀ e ∈ edits, e.Proper text)
    (hfs : Stands text (fillersText fs ++ rest) lo)
    (hapart : ∀ e ∈ edits, e.Beside lo (lo + byteLength (fillersText fs)) (fillersComments lo fs)) :
  ∃ gs, standing text edits lo (lo + byteLength (fillersText fs)) = fillersText gs ∧
    Remnants gs fs
  := by
  induction fs generalizing lo with
  | nil =>
      use []
      exact ⟨standing_of_le (Nat.le_refl _), .nil⟩
  | cons f fs ih =>
      rw [fillersText_cons, List.append_assoc] at hfs
      rw [fillersText_cons, byteLength_append, ← Nat.add_assoc] at *
      have hplaced : ∀ e ∈ edits, e.Placed text := fun e he => (hedits e he).placed
      obtain ⟨first, hfirst, hfirst_sub⟩ := exists_standing_filler hedits hfs fun e he => by
        obtain h | h | ⟨c, hc, rfl⟩ := hapart e he
        · exact .inl h
        · exact .inr (.inl (by omega))
        · obtain hc | hc := List.mem_append.mp hc
          · exact .inr (.inr ⟨c, hc, rfl⟩)
          · exact .inr (.inl (fillersComments_bounds hc).1)
      obtain ⟨gs, hgs, hsub⟩ := ih hfs.append fun e he => by
        obtain h | h | ⟨c, hc, rfl⟩ := hapart e he
        · exact .inl (by omega)
        · exact .inr (.inl h)
        · obtain hc | hc := List.mem_append.mp hc
          · exact .inl (Filler.comment_bounds (by simpa using hc)).2.2
          · exact .inr (.inr ⟨c, hc, rfl⟩)
      use first ++ gs
      rw [standing_append hplaced hfs.boundary hfs.append.boundary hfs.append.append.boundary
        (Nat.le_add_right _ _) (Nat.le_add_right _ _), hfirst, hgs, fillersText_append]
      exact ⟨rfl, hfirst_sub.append hsub⟩

end Edit

namespace Row

/-- Puts fillers in front of a row. -/
def prepend (fs : List Filler) : Row → Row
  | last s => last { s with lead := fs ++ s.lead }
  | cons s c rest => cons { s with lead := fs ++ s.lead } c rest

/-- Joins a slot to the first slot of a row, which has no member. -/
def merge (s : Slot) : Row → Row
  | last t => last { s with trail := s.trail ++ (t.lead ++ t.trail) }
  | cons t c rest => cons { s with trail := s.trail ++ (t.lead ++ t.trail) } c rest

variable {separators : List Char} {fs : List Filler} {s : Slot} {row : Row}

@[simp] theorem text_prepend (fs : List Filler) (row : Row) :
  (row.prepend fs).text = fillersText fs ++ row.text
  := by
  cases row <;> simp [prepend, text, Slot.text]

@[simp] theorem places_prepend (fs : List Filler) (row : Row) :
  (row.prepend fs).places = row.places
  := by
  cases row <;> rfl

@[simp] theorem items_prepend (fs : List Filler) (row : Row) :
  (row.prepend fs).items = row.items
  := by
  cases row <;> rfl

theorem Readable.prepend (h : row.Readable separators) (hfs : ∀ f ∈ fs, f.Readable) :
  (row.prepend fs).Readable separators
  := by
  cases row with
  | last s => exact ⟨List.forall_mem_append.mpr ⟨hfs, h.1⟩, h.2⟩
  | cons s c rest => exact ⟨⟨List.forall_mem_append.mpr ⟨hfs, h.1.1⟩, h.1.2⟩, h.2⟩

theorem text_merge (h : row.places.head? = some none) :
  (row.merge s).text = s.text ++ row.text
  := by
  cases row with
  | last t =>
      have ht : t.item? = none := by simpa [places] using h
      simp [merge, text, Slot.text, ht]
  | cons t c rest =>
      have ht : t.item? = none := by simpa [places] using h
      simp [merge, text, Slot.text, ht]

theorem places_merge (s : Slot) (row : Row) :
  (row.merge s).places = s.item?.map Item.tree :: row.places.tail
  := by
  cases row <;> rfl

theorem items_merge (h : row.places.head? = some none) :
  (row.merge s).items = s.item?.toList ++ row.items
  := by
  cases row with
  | last t =>
      have ht : t.item? = none := by simpa [places] using h
      simp [merge, items, ht]
  | cons t c rest =>
      have ht : t.item? = none := by simpa [places] using h
      simp [merge, items, ht]

theorem fillers_prepend (fs : List Filler) (row : Row) :
  (row.prepend fs).fillers = fs ++ row.fillers
  := by
  cases row <;> simp [prepend, fillers, Slot.fillers]

theorem fillers_merge (s : Slot) (row : Row) :
  (row.merge s).fillers = s.fillers ++ row.fillers
  := by
  cases row <;> simp [merge, fillers, Slot.fillers]

theorem Readable.merge (h : row.Readable separators) (hs : s.Readable) :
  (row.merge s).Readable separators
  := by
  cases row with
  | last t => exact ⟨hs.1, List.forall_mem_append.mpr ⟨hs.2, List.forall_mem_append.mpr h⟩⟩
  | cons t c rest =>
      exact ⟨⟨hs.1, List.forall_mem_append.mpr ⟨hs.2, List.forall_mem_append.mpr h.1⟩⟩, h.2⟩

end Row

theorem Slot.text_of_none {s : Slot} (h : s.item? = none) :
  s.text = fillersText (s.lead ++ s.trail)
  := by
  simp [text, h]

namespace Elision

/-- What the slots of a row hold when members go: the slot of a member that goes becomes a part of
the slot behind it, and if all members behind one go, its slot takes in the one behind it.  -/
def left (e : Elision) : List (Option Tree) → List (Option Tree)
  | [] => []
  | [place] => [place.filter fun t => !e.excluded t.span]
  | none :: place :: places => none :: e.left (place :: places)
  | some t :: place :: places =>
    if e.excluded t.span then e.left (place :: places)
    else some t :: if e.tailGoes ((place :: places).filterMap id) then (e.left (place :: places)).tail
      else e.left (place :: places)

variable {e : Elision} {rule : Rule} {pre post tail : List Char} {row others : Row} {s : Slot}
  {t : Item} {edits : List Edit} {pos : Nat} {c : Char}

theorem left_cons (place : Option Tree) {places : List (Option Tree)} (hne : places ≠ []) :
  e.left (place :: places)
    = match place with
      | none => none :: e.left places
      | some t =>
        if e.excluded t.span then e.left places
        else some t :: if e.tailGoes (places.filterMap id) then (e.left places).tail
          else e.left places
  := by
  cases places with
  | nil => contradiction
  | cons q places =>
      cases place with
      | none => rw [left]
      | some t => rw [left]

theorem places_ne_nil (row : Row) :
  row.places ≠ []
  := by
  cases row <;> simp [Row.places]

/-- If all members of a row go, its first slot is left without one. -/
theorem head?_left {places : List (Option Tree)} (hne : places ≠ [])
    (h : (places.filterMap id).all (fun t => e.excluded t.span) = true) :
  (e.left places).head? = some none
  := by
  induction places with
  | nil => contradiction
  | cons place places ih =>
      cases places with
      | nil => cases place <;> simp_all [left]
      | cons q places =>
          rw [left_cons _ (by simp)]
          cases place with
          | none => rfl
          | some t =>
              have hcons : (some t :: q :: places).filterMap id = t :: (q :: places).filterMap id := rfl
              rw [hcons, List.all_cons, Bool.and_eq_true] at h
              simp only [h.1, if_true]
              exact ih (by simp) h.2

/-- What edits leave of a member that stays. -/
structure Remains (e : Elision) (edits : List Edit) (t' t : Item) : Prop where
  tree : t'.tree = t.tree
  text : t'.text = Edit.standing e.text edits t.tree.span.lo t.tree.span.hi

theorem isBlank_of_mem_separators (h : c ∈ rule.separators) :
  isBlank c = false
  := by
  cases rule <;> simp [Rule.separators] at h <;> rcases h with rfl | rfl <;> rfl

/-- The comments in a slot with a member stand in front of the member or behind it. -/
theorem SlotAt.comments_eq (hat : e.SlotAt pos s t tail) (ht : s.item? = some t) :
  s.comments pos = fillersComments pos s.lead ++ fillersComments t.tree.span.hi s.trail
  := by
  rw [hat.hi, hat.lo, Slot.comments, ht]
  rfl

/-- A slot without a member. -/
theorem exists_standing_empty (hproper : ∀ edit ∈ edits, edit.Proper e.text)
    (hstands : Stands e.text (s.text ++ tail) pos) (ht : s.item? = none)
    (hapart : ∀ edit ∈ edits, edit.Beside pos (pos + byteLength s.text) (s.comments pos)) :
  ∃ fs, Edit.standing e.text edits pos (pos + byteLength s.text) = fillersText fs ∧
    Remnants fs s.fillers
  := by
  have hcomments : s.comments pos = fillersComments pos (s.lead ++ s.trail) := by
    simp [Slot.comments, ht, fillersComments_append]
  rw [hcomments] at hapart
  rw [Slot.text_of_none ht] at *
  exact Edit.exists_standing_fillers hproper hstands hapart

/-- The fillers in front of the member of a slot. -/
theorem exists_standing_lead (hproper : ∀ edit ∈ edits, edit.Proper e.text)
    (hat : e.SlotAt pos s t tail)
    (hapart : ∀ edit ∈ edits, edit.Beside pos t.tree.span.lo (fillersComments pos s.lead)) :
  ∃ fs, Edit.standing e.text edits pos t.tree.span.lo = fillersText fs ∧ Remnants fs s.lead
  := by
  rw [hat.lo] at hapart ⊢
  exact Edit.exists_standing_fillers hproper hat.lead hapart

/-- The fillers behind the member of a slot. -/
theorem exists_standing_trail (hproper : ∀ edit ∈ edits, edit.Proper e.text)
    (hat : e.SlotAt pos s t tail)
    (hapart : ∀ edit ∈ edits, edit.Beside t.tree.span.hi (pos + byteLength s.text)
      (fillersComments t.tree.span.hi s.trail)) :
  ∃ fs, Edit.standing e.text edits t.tree.span.hi (pos + byteLength s.text) = fillersText fs ∧
    Remnants fs s.trail
  := by
  rw [hat.stop] at hapart ⊢
  exact Edit.exists_standing_fillers hproper hat.trail hapart

/-- A slot of which the member stays. -/
theorem exists_standing_slot (hproper : ∀ edit ∈ edits, edit.Proper e.text)
    (hat : e.SlotAt pos s t tail) (ht : s.item? = some t)
    (hout : ∀ edit ∈ edits, edit.Beside pos (pos + byteLength s.text) (s.comments pos) ∨
      t.tree.span.lo ≤ edit.lo ∧ edit.hi ≤ t.tree.span.hi) :
  ∃ (s' : Slot) (t' : Item), Edit.standing e.text edits pos (pos + byteLength s.text) = s'.text ∧
    Remnants s'.fillers s.fillers ∧ s'.item? = some t' ∧ e.Remains edits t' t
  := by
  have hplaced : ∀ edit ∈ edits, edit.Placed e.text := fun edit hedit => (hproper edit hedit).placed
  have hlo := hat.lo
  have hlt := hat.lt
  have hstop := hat.stop
  rw [hat.comments_eq ht] at hout
  obtain ⟨lead, hlead_eq, hlead⟩ := exists_standing_lead hproper hat fun edit hedit => by
    obtain (h | h | ⟨c, hc, rfl⟩) | h := hout edit hedit
    · exact .inl h
    · exact .inr (.inl (by omega))
    · obtain hc | hc := List.mem_append.mp hc
      · exact .inr (.inr ⟨c, hc, rfl⟩)
      · have := fillersComments_bounds hc
        exact .inr (.inl (by simp only; omega))
    · exact .inr (.inl h.1)
  obtain ⟨trail, htrail_eq, htrail⟩ := exists_standing_trail hproper hat fun edit hedit => by
    obtain (h | h | ⟨c, hc, rfl⟩) | h := hout edit hedit
    · exact .inl (by omega)
    · exact .inr (.inl h)
    · obtain hc | hc := List.mem_append.mp hc
      · have := fillersComments_bounds hc
        exact .inl (by simp only; omega)
      · exact .inr (.inr ⟨c, hc, rfl⟩)
    · exact .inl h.2
  let t' : Item := ⟨t.tree, Edit.standing e.text edits t.tree.span.lo t.tree.span.hi⟩
  refine ⟨⟨lead, some t', trail⟩, t', ?_, hlead.append htrail, rfl, rfl, rfl⟩
  rw [Edit.standing_append hplaced hat.lead.boundary hat.item.boundary hat.tail.boundary (by omega)
    (by omega), Edit.standing_append hplaced hat.item.boundary hat.trail.boundary
    hat.tail.boundary (by omega) (by omega), hlead_eq, htrail_eq]
  rfl

/-- What is left of a row: a row of the members that stay. -/
structure LeftOf (e : Elision) (separators : List Char) (edits : List Edit) (row row' : Row) :
    Prop where
  readable : row'.Readable separators
  fillers : Remnants row'.fillers row.fillers
  places : row'.places = e.left row.places
  items : List.Forall₂ (e.Remains edits) row'.items
    (row.items.filter fun t => !e.excluded t.tree.span)

/-- The member of the last slot of a row goes. -/
theorem exists_standing_last_gone (hproper : ∀ edit ∈ edits, edit.Proper e.text)
    (h : e.Written rule pre (.last s) post) (hitem : s.item? = some t)
    (hgoes : e.excluded t.tree.span = true) (hin : ⟨t.tree.span.lo, t.tree.span.hi, ""⟩ ∈ edits)
    (hout : ∀ edit ∈ edits, edit.Beside (byteLength pre) (byteLength pre + byteLength s.text)
      (s.comments (byteLength pre)) ∨ edit = ⟨t.tree.span.lo, t.tree.span.hi, ""⟩) :
  ∃ row' : Row,
    Edit.standing e.text edits (byteLength pre) (byteLength pre + byteLength s.text) = row'.text ∧
    e.LeftOf rule.separators edits (.last s) row'
  := by
  have hplaced : ∀ edit ∈ edits, edit.Placed e.text := fun edit hedit => (hproper edit hedit).placed
  have hat := slotAt h.stands h.fits hitem
  have hlt := hat.lt
  obtain ⟨s', t', hs', hremnants, hitem', hremains⟩ :=
    exists_standing_slot hproper hat hitem fun edit hedit =>
      (hout edit hedit).imp_right fun heq => by rw [heq]; exact ⟨Nat.le_refl _, Nat.le_refl _⟩
  have hgone : t'.text = [] := by
    rw [hremains.text]
    apply Edit.standing_of_deletion hproper hin
    intro edit hedit
    have := (hproper edit hedit).lt
    have hlo := hat.lo
    have hstop := hat.stop
    obtain (hle | hle | ⟨c, -, rfl⟩) | rfl := hout edit hedit
    · exact .inr (.inl (by omega))
    · exact .inr (.inr (by omega))
    · exact .inl rfl
    · exact .inl rfl
  use .last { s' with item? := none }
  constructor
  · rw [hs']
    simp [Row.text, Slot.text, hitem', hgone]
  · refine ⟨Slot.readable_iff.mpr (hremnants.readable (Slot.readable_iff.mp h.readable)), hremnants,
      ?_, ?_⟩
    · simp [Row.places, left, hitem, Option.filter, hgoes]
    · simp [Row.items, hitem, hgoes]

/-- The last slot of a row. -/
theorem exists_standing_last (hproper : ∀ edit ∈ edits, edit.Proper e.text)
    (h : e.Written rule pre (.last s) post)
    (hin : ∀ edit ∈ e.lastEdits s, edit ∈ edits)
    (hout : ∀ edit ∈ edits, edit.Beside (byteLength pre) (byteLength pre + byteLength s.text)
      (s.comments (byteLength pre)) ∨ edit ∈ e.lastEdits s) :
  ∃ row' : Row,
    Edit.standing e.text edits (byteLength pre) (byteLength pre + byteLength s.text) = row'.text ∧
    e.LeftOf rule.separators edits (.last s) row'
  := by
  rw [lastEdits] at hin hout
  cases ht : s.item? with
  | none =>
      simp only [ht, List.not_mem_nil, or_false] at hout
      obtain ⟨fs, hfs, hremnants⟩ := exists_standing_empty hproper h.stands ht hout
      use .last ⟨fs, none, []⟩
      constructor
      · rw [hfs]
        simp [Row.text, Slot.text]
      · refine ⟨⟨hremnants.readable (Slot.readable_iff.mp h.readable), by simp⟩, ?_, ?_, ?_⟩
        · simpa [Row.fillers, Slot.fillers] using hremnants
        · simp [Row.places, left, ht]
        · simp [Row.items, ht]
  | some t =>
      simp only [ht] at hin hout
      cases hgoes : e.excluded t.tree.span with
      | true =>
          simp only [hgoes, if_true, List.mem_singleton, forall_eq] at hin hout
          exact exists_standing_last_gone hproper h ht hgoes hin hout
      | false =>
          simp only [hgoes, Bool.false_eq_true, if_false] at hout
          obtain ⟨s', t', hs', hremnants, hitem, hremains⟩ :=
            exists_standing_slot hproper (slotAt h.stands h.fits ht) ht fun edit hedit =>
              (hout edit hedit).imp_right fun hmem => ((h.fits t ht).inside hgoes edit hmem).2
          use .last s'
          refine ⟨hs', Slot.readable_iff.mpr
            (hremnants.readable (Slot.readable_iff.mp h.readable)), hremnants, ?_, ?_⟩
          · simp [Row.places, left, ht, Option.filter, hgoes, hitem, hremains.tree]
          · simpa [Row.items, ht, hgoes, hitem] using hremains

/-- A separator that no deletion takes out. -/
theorem standing_separator (hproper : ∀ edit ∈ edits, edit.Proper e.text)
    (h : e.Written rule pre (.cons s c others) post)
    (hapart : ∀ edit ∈ edits, edit.hi ≤ byteLength pre + byteLength s.text ∨
      byteLength pre + byteLength s.text + 1 ≤ edit.lo) :
  Edit.standing e.text edits (byteLength pre + byteLength s.text)
    (byteLength pre + byteLength s.text + 1) = [c]
  := by
  have hlength : byteLength [c] = 1 := h.utf8Size
  have hink := isBlank_of_mem_separators h.readable.2.1
  have hstands : Stands e.text ([c] ++ (others.text ++ post)) (byteLength pre + byteLength s.text) :=
    h.stands_cons.append
  rw [← hlength] at hapart ⊢
  apply Edit.standing_of_ink hproper hstands
  · exact fun edit hedit p hle hlt => Edit.not_covers_of_apart (hapart edit hedit) hle hlt
  · exact ⟨c, rfl, hink⟩
  · exact ⟨c, rfl, .inl hink⟩

theorem Written.boundary_separator (h : e.Written rule pre (.cons s c others) post) :
  Boundary e.text (byteLength pre + byteLength s.text)
  := h.stands_cons.append.boundary

theorem Written.boundary_behind (h : e.Written rule pre (.cons s c others) post) :
  Boundary e.text (byteLength pre + byteLength s.text + 1)
  := by
  have := h.stands_cons.append.cons.boundary
  rwa [h.utf8Size] at this

theorem left_places_cons (e : Elision) (s : Slot) (c : Char) (others : Row) :
  e.left (Row.cons s c others).places
    = match s.item?.map Item.tree with
      | none => none :: e.left others.places
      | some t =>
        if e.excluded t.span then e.left others.places
        else some t :: if e.tailGoes others.trees then (e.left others.places).tail
          else e.left others.places
  := by
  rw [← Row.reduceOption_places]
  exact left_cons _ (places_ne_nil others)

/-! A slot that a separator ends, given what is left of the row behind it. -/

section

variable {row' : Row} {item : Item}

/-- A slot without a member stays, and so does its separator. -/
theorem exists_standing_cons_none (hproper : ∀ edit ∈ edits, edit.Proper e.text)
    (h : e.Written rule pre (.cons s c others) post) (hitem : s.item? = none)
    (hout : ∀ edit ∈ edits, edit.Beside (byteLength pre) (byteLength pre + byteLength s.text + 1)
      (s.comments (byteLength pre)))
    (hleft : e.LeftOf rule.separators edits others row') :
  ∃ row'' : Row,
    Edit.standing e.text edits (byteLength pre) (byteLength pre + byteLength s.text + 1)
      ++ row'.text = row''.text ∧
    e.LeftOf rule.separators edits (.cons s c others) row''
  := by
  have hplaced : ∀ edit ∈ edits, edit.Placed e.text := fun edit hedit => (hproper edit hedit).placed
  obtain ⟨fs, hfs, hremnants⟩ := exists_standing_empty hproper h.stands_cons hitem
    fun edit hedit => (hout edit hedit).imp_right <| .imp_left <| by omega
  have hmark := standing_separator hproper h fun edit hedit => by
    obtain hle | hle | ⟨c, hc, rfl⟩ := hout edit hedit
    · exact .inl (by omega)
    · exact .inr hle
    · exact .inl (Slot.comments_bounds hc).2.2
  use .cons ⟨fs, none, []⟩ c row'
  constructor
  · rw [Edit.standing_append hplaced h.stands_cons.boundary h.boundary_separator h.boundary_behind
      (Nat.le_add_right _ _) (Nat.le_succ _), hfs, hmark]
    simp [Row.text, Slot.text]
  · refine ⟨⟨⟨hremnants.readable (Slot.readable_iff.mp h.readable.1), by simp⟩, h.readable.2.1,
      hleft.readable⟩, ?_, ?_, ?_⟩
    · simpa [Row.fillers, Slot.fillers] using hremnants.append hleft.fillers
    · rw [left_places_cons, hitem, Row.places, hleft.places]
      rfl
    · simpa [Row.items, hitem] using hleft.items

/-- A member goes with its separator, and the row behind takes in what stands in front of it. -/
theorem exists_standing_cons_gone (hproper : ∀ edit ∈ edits, edit.Proper e.text)
    (h : e.Written rule pre (.cons s c others) post) (hitem : s.item? = some item)
    (hgoes : e.excluded item.tree.span = true)
    (hin : ⟨item.tree.span.lo, byteLength pre + byteLength s.text + 1, ""⟩ ∈ edits)
    (hout : ∀ edit ∈ edits, edit.Beside (byteLength pre) (byteLength pre + byteLength s.text + 1)
      (s.comments (byteLength pre)) ∨
      edit = ⟨item.tree.span.lo, byteLength pre + byteLength s.text + 1, ""⟩)
    (hleft : e.LeftOf rule.separators edits others row') :
  ∃ row'' : Row,
    Edit.standing e.text edits (byteLength pre) (byteLength pre + byteLength s.text + 1)
      ++ row'.text = row''.text ∧
    e.LeftOf rule.separators edits (.cons s c others) row''
  := by
  have hplaced : ∀ edit ∈ edits, edit.Placed e.text := fun edit hedit => (hproper edit hedit).placed
  have hat := slotAt h.stands_cons h.fits.1 hitem
  have hlo := hat.lo
  have hlt := hat.lt
  have hstop := hat.stop
  rw [hat.comments_eq hitem] at hout
  obtain ⟨lead, hlead_eq, hlead⟩ := exists_standing_lead hproper hat fun edit hedit => by
    obtain (hle | hle | ⟨c, hc, rfl⟩) | rfl := hout edit hedit
    · exact .inl hle
    · exact .inr (.inl (by omega))
    · obtain hc | hc := List.mem_append.mp hc
      · exact .inr (.inr ⟨c, hc, rfl⟩)
      · have := fillersComments_bounds hc
        exact .inr (.inl (by simp only; omega))
    · exact .inr (.inl (Nat.le_refl _))
  have hgone := Edit.standing_of_deletion hproper hin fun edit hedit => by
    have := (hproper edit hedit).lt
    obtain (hle | hle | ⟨c, -, rfl⟩) | rfl := hout edit hedit
    · exact .inr (.inl (by omega))
    · exact .inr (.inr hle)
    · exact .inl rfl
    · exact .inl rfl
  use row'.prepend lead
  constructor
  · rw [Edit.standing_append hplaced hat.lead.boundary hat.item.boundary h.boundary_behind (by omega)
      (by omega), hlead_eq, hgone, List.append_nil, Row.text_prepend]
  · refine ⟨hleft.readable.prepend (hlead.readable h.readable.1.1), ?_, ?_, ?_⟩
    · rw [Row.fillers_prepend]
      exact (hlead.mono (List.subset_append_left _ _)).append hleft.fillers
    · rw [left_places_cons, hitem, Row.places_prepend, hleft.places]
      simp [hgoes]
    · simpa [Row.items, hitem, hgoes] using hleft.items

/-- A member stays with what stands around it, whatever becomes of its separator. -/
theorem exists_standing_cons_slot (hproper : ∀ edit ∈ edits, edit.Proper e.text)
    (h : e.Written rule pre (.cons s c others) post) (hitem : s.item? = some item)
    (hgoes : e.excluded item.tree.span = false)
    (hout : ∀ edit ∈ edits, edit.Beside (byteLength pre) (byteLength pre + byteLength s.text)
      (s.comments (byteLength pre)) ∨
      item.tree.span.lo ≤ edit.lo ∧ edit.hi ≤ item.tree.span.hi)
    (hleft : e.LeftOf rule.separators edits others row') :
  ∃ s' : Slot,
    Edit.standing e.text edits (byteLength pre) (byteLength pre + byteLength s.text + 1)
      = s'.text ++ Edit.standing e.text edits (byteLength pre + byteLength s.text)
          (byteLength pre + byteLength s.text + 1) ∧
    Remnants s'.fillers s.fillers ∧ s'.item?.map Item.tree = some item.tree ∧
    List.Forall₂ (e.Remains edits) (s'.item?.toList ++ row'.items)
      ((Row.cons s c others).items.filter fun t => !e.excluded t.tree.span)
  := by
  have hplaced : ∀ edit ∈ edits, edit.Placed e.text := fun edit hedit => (hproper edit hedit).placed
  obtain ⟨s', t', hs', hremnants, hitem', hremains⟩ :=
    exists_standing_slot hproper (slotAt h.stands_cons h.fits.1 hitem) hitem hout
  refine ⟨s', ?_, hremnants, ?_, ?_⟩
  · rw [Edit.standing_append hplaced h.stands_cons.boundary h.boundary_separator h.boundary_behind
      (Nat.le_add_right _ _) (Nat.le_succ _), hs']
  · rw [hitem', Option.map_some, hremains.tree]
  · simpa [Row.items, hitem, hgoes, hitem'] using ⟨hremains, hleft.items⟩

/-- A member stays with its separator. -/
theorem exists_standing_cons_kept (hproper : ∀ edit ∈ edits, edit.Proper e.text)
    (h : e.Written rule pre (.cons s c others) post) (hitem : s.item? = some item)
    (hgoes : e.excluded item.tree.span = false) (htail : e.tailGoes others.trees = false)
    (hout : ∀ edit ∈ edits, edit.Beside (byteLength pre) (byteLength pre + byteLength s.text + 1)
      (s.comments (byteLength pre)) ∨
      item.tree.span.lo ≤ edit.lo ∧ edit.hi ≤ item.tree.span.hi)
    (hleft : e.LeftOf rule.separators edits others row') :
  ∃ row'' : Row,
    Edit.standing e.text edits (byteLength pre) (byteLength pre + byteLength s.text + 1)
      ++ row'.text = row''.text ∧
    e.LeftOf rule.separators edits (.cons s c others) row''
  := by
  have hstop := (slotAt h.stands_cons h.fits.1 hitem).stop
  obtain ⟨s', hs', hremnants, hplace, hremaining⟩ :=
    exists_standing_cons_slot hproper h hitem hgoes
      (fun edit hedit => (hout edit hedit).imp_left <| .imp_right <| .imp_left <| by omega) hleft
  have hmark := standing_separator hproper h fun edit hedit => by
    obtain (hle | hle | ⟨c, hc, rfl⟩) | hinside := hout edit hedit
    · exact .inl (by omega)
    · exact .inr hle
    · exact .inl (Slot.comments_bounds hc).2.2
    · exact .inl (by omega)
  use .cons s' c row'
  constructor
  · rw [hs', hmark, Row.text]
    simp
  · refine ⟨⟨Slot.readable_iff.mpr (hremnants.readable (Slot.readable_iff.mp h.readable.1)),
      h.readable.2.1, hleft.readable⟩, hremnants.append hleft.fillers, ?_, hremaining⟩
    rw [left_places_cons, hitem, Row.places, hleft.places, hplace]
    simp [hgoes, htail]

/-- A member stays without its separator if all behind it go, and takes in what is left of these. -/
theorem exists_standing_cons_joined (hproper : ∀ edit ∈ edits, edit.Proper e.text)
    (h : e.Written rule pre (.cons s c others) post) (hitem : s.item? = some item)
    (hgoes : e.excluded item.tree.span = false) (htail : e.tailGoes others.trees = true)
    (hin : ⟨byteLength pre + byteLength s.text, byteLength pre + byteLength s.text + 1, ""⟩ ∈ edits)
    (hout : ∀ edit ∈ edits, edit.Beside (byteLength pre) (byteLength pre + byteLength s.text + 1)
      (s.comments (byteLength pre)) ∨
      (item.tree.span.lo ≤ edit.lo ∧ edit.hi ≤ item.tree.span.hi) ∨
      edit = ⟨byteLength pre + byteLength s.text, byteLength pre + byteLength s.text + 1, ""⟩)
    (hleft : e.LeftOf rule.separators edits others row') :
  ∃ row'' : Row,
    Edit.standing e.text edits (byteLength pre) (byteLength pre + byteLength s.text + 1)
      ++ row'.text = row''.text ∧
    e.LeftOf rule.separators edits (.cons s c others) row''
  := by
  have hstop := (slotAt h.stands_cons h.fits.1 hitem).stop
  obtain ⟨s', hs', hremnants, hplace, hremaining⟩ :=
    exists_standing_cons_slot hproper h hitem hgoes
      (fun edit hedit => by
        obtain hbeside | hinside | rfl := hout edit hedit
        · exact .inl (hbeside.imp_right <| .imp_left <| by omega)
        · exact .inr hinside
        · exact .inl (.inr (.inl (Nat.le_refl _)))) hleft
  have hgone := Edit.standing_of_deletion hproper hin fun edit hedit => by
    have := (hproper edit hedit).lt
    obtain (hle | hle | ⟨c, -, rfl⟩) | hinside | rfl := hout edit hedit
    · exact .inr (.inl (by omega))
    · exact .inr (.inr hle)
    · exact .inl rfl
    · exact .inr (.inl (by omega))
    · exact .inl rfl
  have hhead : row'.places.head? = some none := by
    rw [hleft.places]
    apply head?_left (places_ne_nil others)
    rw [Row.reduceOption_places]
    rw [tailGoes, Bool.and_eq_true] at htail
    exact htail.2
  use row'.merge s'
  constructor
  · rw [hs', hgone, List.append_nil, Row.text_merge hhead]
  · refine ⟨hleft.readable.merge (Slot.readable_iff.mpr
      (hremnants.readable (Slot.readable_iff.mp h.readable.1))), ?_, ?_, ?_⟩
    · rw [Row.fillers_merge]
      exact hremnants.append hleft.fillers
    · rw [left_places_cons, hitem, Row.places_merge, hleft.places, hplace]
      simp [hgoes, htail]
    · rw [Row.items_merge hhead]
      exact hremaining

end

/-- A slot that a separator ends, and what is left of the row behind it. -/
theorem exists_standing_cons {row' : Row}
    (hproper : ∀ edit ∈ edits, edit.Proper e.text)
    (h : e.Written rule pre (.cons s c others) post)
    (hin : ∀ edit ∈ e.slotEdits (byteLength pre + byteLength s.text) (e.tailGoes others.trees) s,
      edit ∈ edits)
    (hout : ∀ edit ∈ edits, edit.Beside (byteLength pre) (byteLength pre + byteLength s.text + 1)
      (s.comments (byteLength pre)) ∨
      edit ∈ e.slotEdits (byteLength pre + byteLength s.text) (e.tailGoes others.trees) s)
    (hleft : e.LeftOf rule.separators edits others row') :
  ∃ row'' : Row,
    Edit.standing e.text edits (byteLength pre) (byteLength pre + byteLength s.text + 1)
      ++ row'.text = row''.text ∧
    e.LeftOf rule.separators edits (.cons s c others) row''
  := by
  rw [slotEdits] at hin hout
  cases hitem : s.item? with
  | none =>
      simp only [hitem, List.not_mem_nil, or_false] at hout
      exact exists_standing_cons_none hproper h hitem hout hleft
  | some item =>
      simp only [hitem] at hin hout
      cases hgoes : e.excluded item.tree.span with
      | true =>
          simp only [hgoes, if_true, List.mem_singleton, forall_eq] at hin hout
          exact exists_standing_cons_gone hproper h hitem hgoes hin hout hleft
      | false =>
          have hinside := (h.fits.1 item hitem).inside hgoes
          cases htail : e.tailGoes others.trees with
          | true =>
              simp only [hgoes, htail, Bool.false_eq_true, if_false, if_true, List.mem_append,
                List.mem_singleton] at hin hout
              exact exists_standing_cons_joined hproper h hitem hgoes htail (hin _ (.inr rfl))
                (fun edit hedit => (hout edit hedit).imp_right <| .imp_left fun hmem =>
                  (hinside edit hmem).2) hleft
          | false =>
              simp only [hgoes, htail, Bool.false_eq_true, if_false, List.append_nil] at hout
              exact exists_standing_cons_kept hproper h hitem hgoes htail
                (fun edit hedit => (hout edit hedit).imp_right fun hmem => (hinside edit hmem).2)
                hleft

/-- What is left of a row when what is deleted of it and some of its comments go is a row of the
members that stay.  -/
theorem exists_standing_row (hproper : ∀ edit ∈ edits, edit.Proper e.text)
    (h : e.Written rule pre row post)
    (hin : ∀ edit ∈ e.rowEdits (byteLength pre) row, edit ∈ edits)
    (hout : ∀ edit ∈ edits, edit.Beside (byteLength pre) (byteLength pre + byteLength row.text)
      (row.comments (byteLength pre)) ∨ edit ∈ e.rowEdits (byteLength pre) row) :
  ∃ row' : Row,
    Edit.standing e.text edits (byteLength pre) (byteLength pre + byteLength row.text) = row'.text ∧
    e.LeftOf rule.separators edits row row'
  := by
  induction row generalizing pre with
  | last s => exact exists_standing_last hproper h hin hout
  | cons s c others ih =>
      have hplaced : ∀ edit ∈ edits, edit.Placed e.text :=
        fun edit hedit => (hproper edit hedit).placed
      have hstop := h.behind.stands.boundary
      have hend := h.behind.stands.append.boundary
      simp only [rowEdits, Row.comments, List.mem_append] at hin hout
      rw [h.byteLength_cons] at hout ⊢
      have hrest := ih h.behind
      rw [h.byteLength_front] at hrest hstop hend
      -- what goes of the slot ends where the others start, and what goes of them starts there
      obtain ⟨row', hrow', hleft⟩ := hrest (fun edit hedit => hin edit (.inr hedit))
        fun edit hedit => by
          obtain (hle | hle | ⟨c, hc, rfl⟩) | hmem | hmem := hout edit hedit
          · exact .inl (.inl (by omega))
          · exact .inl (.inr (.inl (by omega)))
          · obtain hc | hc := List.mem_append.mp hc
            · exact .inl (.inl (Nat.le_succ_of_le (Slot.comments_bounds hc).2.2))
            · exact .inl (.inr (.inr ⟨c, hc, rfl⟩))
          · exact .inl (.inl (proper_of_mem_slotEdits h hmem).2.2)
          · exact .inr hmem
      obtain ⟨row'', hrow'', hleft'⟩ := exists_standing_cons hproper h
        (fun edit hedit => hin edit (.inl hedit))
        (fun edit hedit => by
          obtain (hle | hle | ⟨c, hc, rfl⟩) | hmem | hmem := hout edit hedit
          · exact .inl (.inl hle)
          · exact .inl (.inr (.inl (by omega)))
          · obtain hc | hc := List.mem_append.mp hc
            · exact .inl (.inr (.inr ⟨c, hc, rfl⟩))
            · exact .inl (.inr (.inl (Row.comments_bounds hc).1))
          · exact .inr hmem
          · rw [← h.byteLength_front] at hmem
            have := (proper_of_mem_rowEdits h.behind hmem).2.1
            rw [h.byteLength_front] at this
            exact .inl (.inr (.inl this)))
        hleft
      use row''
      refine ⟨?_, hleft'⟩
      have hlength : byteLength pre + (byteLength s.text + 1 + byteLength others.text)
          = byteLength pre + byteLength s.text + 1 + byteLength others.text := by omega
      rw [hlength, Edit.standing_append hplaced h.stands.boundary hstop hend (by omega) (by omega),
        hrow', hrow'']

end Elision

end Prune
