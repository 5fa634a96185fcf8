import Mathlib.Data.List.Basic
import Prune.Proofs.Elision.Rows

/-!
# Comments in rows

The comments among fillers (`fillersComments`), and those in the slots of a row (`Row.comments`).
They stand one behind the other (`Row.pairwise_comments`) between the ends of what they are in
(`Row.comments_bounds`), and can be taken out of a text that a row is written down in
(`Elision.proper_comment`).
-/

namespace Prune

open Text
open Source (Tree Span Rule)

/-! ### Comments among fillers -/

namespace Filler

/-- The span of a comment whose text stands between its marks, without the line feed that ends it.
-/
def commentSpan (pos marks : Nat) (body : List Char) : Span :=
  ⟨pos, pos + byteLength body + marks⟩

/-- The comment that a filler is at an offset. -/
def comment? (pos : Nat) : Filler → Option Source.Comment
  | blank _ => none
  | line body => some ⟨String.ofList body, commentSpan pos 2 body⟩
  | block body => some ⟨String.ofList body, commentSpan pos 4 body⟩

theorem commentSpan_line (pos : Nat) (body : List Char) :
  commentSpan pos 2 body = ⟨pos, pos + byteLength ('/' :: '/' :: body)⟩
  := by
  have hslash : '/'.utf8Size = 1 := rfl
  rw [commentSpan, byteLength_cons, byteLength_cons, hslash]
  congr 1
  omega

theorem commentSpan_block (pos : Nat) (body : List Char) :
  commentSpan pos 4 body = ⟨pos, pos + byteLength (block body).text⟩
  := by
  have hslash : '/'.utf8Size = 1 := rfl
  have hstar : '*'.utf8Size = 1 := rfl
  simp only [commentSpan, text, byteLength_cons, byteLength_append, byteLength_nil, hslash, hstar]
  congr 1
  omega

theorem comment_bounds {f : Filler} {pos : Nat} {c : Source.Comment} (h : f.comment? pos = some c) :
  c.span.lo = pos ∧ pos < c.span.hi ∧ c.span.hi ≤ pos + byteLength f.text
  := by
  have hslash : '/'.utf8Size = 1 := rfl
  have hstar : '*'.utf8Size = 1 := rfl
  cases f with
  | blank d => simp [comment?] at h
  | line body =>
      obtain rfl := Option.some.inj h
      simp [commentSpan, text, hslash]
      omega
  | block body =>
      obtain rfl := Option.some.inj h
      simp [commentSpan, text, hslash, hstar]
      omega

end Filler

/-- The comments among fillers that start at an offset. -/
def fillersComments (pos : Nat) : List Filler → List Source.Comment
  | [] => []
  | f :: fs => (f.comment? pos).toList ++ fillersComments (pos + byteLength f.text) fs

theorem fillersComments_bounds {fs : List Filler} {pos : Nat} {c : Source.Comment}
    (h : c ∈ fillersComments pos fs) :
  pos ≤ c.span.lo ∧ c.span.lo < c.span.hi ∧ c.span.hi ≤ pos + byteLength (fillersText fs)
  := by
  induction fs generalizing pos with
  | nil => simp [fillersComments] at h
  | cons f fs ih =>
      rw [fillersText_cons, byteLength_append]
      obtain h | h := List.mem_append.mp h
      · have := Filler.comment_bounds (by simpa using h)
        omega
      · have := ih h
        omega

theorem pairwise_fillersComments (pos : Nat) (fs : List Filler) :
  (fillersComments pos fs).Pairwise fun a b => a.span.hi ≤ b.span.lo
  := by
  induction fs generalizing pos with
  | nil => exact .nil
  | cons f fs ih =>
      refine List.pairwise_append.mpr ⟨by simp, ih _, fun a ha b hb => ?_⟩
      have := Filler.comment_bounds (by simpa using ha)
      have := fillersComments_bounds hb
      omega

/-- A comment among fillers stands between characters of a text that the fillers stand in. -/
theorem boundary_fillersComments {text rest : List Char} {fs : List Filler} {pos : Nat}
    {c : Source.Comment} (h : Stands text (fillersText fs ++ rest) pos)
    (hc : c ∈ fillersComments pos fs) :
  Boundary text c.span.lo ∧ Boundary text c.span.hi
  := by
  induction fs generalizing pos with
  | nil => simp [fillersComments] at hc
  | cons f fs ih =>
      rw [fillersText_cons, List.append_assoc] at h
      obtain hc | hc := List.mem_append.mp hc
      · cases f with
        | blank d => simp [Filler.comment?] at hc
        | line body =>
            obtain rfl := List.mem_singleton.mp hc
            rw [Filler.commentSpan_line]
            have hfront :
                Stands text (('/' :: '/' :: body) ++ ('\n' :: (fillersText fs ++ rest))) pos := by
              simpa [Filler.text] using h
            exact ⟨h.boundary, hfront.append.boundary⟩
        | block body =>
            obtain rfl := List.mem_singleton.mp hc
            rw [Filler.commentSpan_block]
            exact ⟨h.boundary, h.append.boundary⟩
      · exact ih h.append hc

theorem fillersComments_append (pos : Nat) (fs gs : List Filler) :
  fillersComments pos (fs ++ gs)
    = fillersComments pos fs ++ fillersComments (pos + byteLength (fillersText fs)) gs
  := by
  induction fs generalizing pos with
  | nil => rfl
  | cons f fs ih =>
      simp [fillersComments, ih, Nat.add_assoc]

/-! ### Comments in slots -/

/-- The fillers of a slot. -/
def Slot.fillers (s : Slot) : List Filler :=
  s.lead ++ s.trail

/-- The comments in a slot that starts at an offset. -/
def Slot.comments (pos : Nat) (s : Slot) : List Source.Comment :=
  let item := byteLength ((s.item?.map Item.text).getD [])
  fillersComments pos s.lead
    ++ fillersComments (pos + byteLength (fillersText s.lead) + item) s.trail

/-- The fillers of a row. -/
def Row.fillers : Row → List Filler
  | last s => s.fillers
  | cons s _ rest => s.fillers ++ rest.fillers

/-- The comments in a row that starts at an offset. -/
def Row.comments (pos : Nat) : Row → List Source.Comment
  | last s => s.comments pos
  | cons s _ rest => s.comments pos ++ rest.comments (pos + byteLength s.text + 1)

theorem Slot.readable_iff {s : Slot} :
  s.Readable ↔ ∀ f ∈ s.fillers, f.Readable
  := List.forall_mem_append.symm

theorem Slot.comments_bounds {s : Slot} {pos : Nat} {c : Source.Comment} (h : c ∈ s.comments pos) :
  pos ≤ c.span.lo ∧ c.span.lo < c.span.hi ∧ c.span.hi ≤ pos + byteLength s.text
  := by
  rw [Slot.text, byteLength_append, byteLength_append]
  obtain h | h := List.mem_append.mp h
  · have := fillersComments_bounds h
    omega
  · have := fillersComments_bounds h
    omega

theorem Row.comments_bounds {row : Row} {pos : Nat} {c : Source.Comment}
    (h : c ∈ row.comments pos) :
  pos ≤ c.span.lo ∧ c.span.lo < c.span.hi ∧ c.span.hi ≤ pos + byteLength row.text
  := by
  induction row generalizing pos with
  | last s => exact Slot.comments_bounds h
  | cons s d rest ih =>
      have hsize := d.utf8Size_pos
      rw [Row.text, byteLength_append, byteLength_cons]
      obtain h | h := List.mem_append.mp h
      · have := Slot.comments_bounds h
        omega
      · have := ih h
        omega

theorem Slot.pairwise_comments (s : Slot) (pos : Nat) :
  (s.comments pos).Pairwise fun a b => a.span.hi ≤ b.span.lo
  := by
  refine List.pairwise_append.mpr
    ⟨pairwise_fillersComments _ _, pairwise_fillersComments _ _, fun a ha b hb => ?_⟩
  have := fillersComments_bounds ha
  have := fillersComments_bounds hb
  omega

/-- The comments in a row stand one behind the other. -/
theorem Row.pairwise_comments (row : Row) (pos : Nat) :
  (row.comments pos).Pairwise fun a b => a.span.hi ≤ b.span.lo
  := by
  induction row generalizing pos with
  | last s => exact s.pairwise_comments pos
  | cons s c rest ih =>
      refine List.pairwise_append.mpr ⟨s.pairwise_comments pos, ih _, fun a ha b hb => ?_⟩
      have := Slot.comments_bounds ha
      have := Row.comments_bounds hb
      omega

/-- A comment in a slot stands between characters of a text that the slot stands in. -/
theorem Slot.boundary_comments {text tail : List Char} {s : Slot} {pos : Nat} {c : Source.Comment}
    (h : Stands text (s.text ++ tail) pos) (hc : c ∈ s.comments pos) :
  Boundary text c.span.lo ∧ Boundary text c.span.hi
  := by
  rw [Slot.text, List.append_assoc, List.append_assoc] at h
  obtain hc | hc := List.mem_append.mp hc
  · exact boundary_fillersComments h hc
  · exact boundary_fillersComments h.append.append hc

/-- The deletion of a comment in a row takes out something of the text. -/
theorem Elision.proper_comment {e : Elision} {rule : Rule} {pre post : List Char} {row : Row}
    {c : Source.Comment} (h : e.Written rule pre row post)
    (hc : c ∈ row.comments (byteLength pre)) :
  Edit.Proper e.text ⟨c.span.lo, c.span.hi, ""⟩
  := by
  have hlt := (Row.comments_bounds hc).2.1
  suffices hboundary : Boundary e.text c.span.lo ∧ Boundary e.text c.span.hi from
    proper_deletion hlt hboundary.1 hboundary.2
  clear hlt
  induction row generalizing pre with
  | last s => exact s.boundary_comments h.stands hc
  | cons s d others ih =>
      obtain hc | hc := List.mem_append.mp hc
      · exact s.boundary_comments h.stands_cons hc
      · rw [← h.byteLength_front] at hc
        exact ih h.behind hc

end Prune
