import Mathlib.Data.List.Basic
import Prune.Proofs.Elision.Deletions
import Prune.Proofs.Reparse
import Prune.Proofs.Text.Words

/-!
# Whether a text changes

A text changes when an edit takes out a character that no edit brings in (`Edit.applyAll_ne`).  A
directive holds a number sign (`hash_mem_of_isDirective`), and what takes the place of something
holds none, so that a text with a directive changes whatever else goes (`code_elide_ne`).
-/

namespace Prune

open Text Source

namespace Edit

variable {text : List Char} {pos : Nat} {c : Char} {qs : List Piece} {q : Piece}

theorem Tiles.exists_mem (h : Tiles text pos qs) {pos' : Nat} (hc : CharAt text pos' c)
    (hle : pos ≤ pos') :
  ∃ q ∈ qs, q.lo ≤ pos' ∧ pos' < q.hi
  := by
  obtain ⟨rest, hrest⟩ := hc
  have := hrest.add_byteLength
  have := c.utf8Size_pos
  rw [byteLength_cons] at *
  apply h.exists_mem_of_lt hle (by omega)

/-- A character between two offsets is one of the part of the text between them. -/
theorem mem_slice {lo hi : Nat} (hlo : Boundary text lo) (hhi : Boundary text hi)
    (hc : CharAt text pos c) (hle : lo ≤ pos) (hlt : pos < hi) :
  c ∈ slice lo hi text
  := by
  obtain ⟨rest, hrest⟩ := hlo
  obtain ⟨rest', hrest'⟩ := hhi
  obtain ⟨mid, rfl, rfl⟩ := hrest.exists_between hrest' (by omega)
  rw [slice_of_stands hrest rfl rfl]
  exact hc.mem hrest hle hlt

theorem Piece.count_output_le (text : List Char) (hnew : ∀ r, q.replacement = some r → c ∉ r.toList) :
  (q.output text).count c ≤ (slice q.lo q.hi text).count c
  := by
  rw [Piece.output]
  split
  · exact Nat.le_refl _
  · next r hr =>
    rw [List.count_eq_zero_of_not_mem (hnew r hr)]
    exact Nat.zero_le _

/-- Characters that no replacement brings in do not become more. -/
theorem Tiles.count_output_le (h : Tiles text pos qs)
    (hnew : ∀ q ∈ qs, ∀ r, q.replacement = some r → c ∉ r.toList) :
  (qs.flatMap (Piece.output text)).count c ≤ (dropBytes pos text).count c
  := by
  rw [← h.flatMap_slice]
  clear h
  induction qs with
  | nil => simp
  | cons q qs ih =>
      obtain ⟨hq, hqs⟩ := List.forall_mem_cons.mp hnew
      have := Piece.count_output_le text hq
      have := ih hqs
      simp only [List.flatMap_cons, List.count_append]
      omega

/-- They become fewer if one of them is replaced. -/
theorem Tiles.count_output_lt (h : Tiles text pos qs)
    (hnew : ∀ q ∈ qs, ∀ r, q.replacement = some r → c ∉ r.toList) {r : String} (hq : q ∈ qs)
    (hr : q.replacement = some r) {pos' : Nat} (hc : CharAt text pos' c) (hlo : q.lo ≤ pos')
    (hhi : pos' < q.hi) :
  (qs.flatMap (Piece.output text)).count c < (dropBytes pos text).count c
  := by
  induction h with
  | nil => simp at hq
  | @cons first qs hle hlo' hhi' hqs ih =>
      obtain ⟨hfirst, hrest⟩ := List.forall_mem_cons.mp hnew
      rw [← (Tiles.cons hle hlo' hhi' hqs).flatMap_slice, List.flatMap_cons, List.flatMap_cons,
        hqs.flatMap_slice, List.count_append, List.count_append]
      obtain rfl | hq := List.mem_cons.mp hq
      · have := hqs.count_output_le hrest
        have := List.count_pos_iff.mpr (mem_slice hlo' hhi' hc hlo hhi)
        have : (q.output text).count c = 0 := by
          rw [Piece.output, hr]
          exact List.count_eq_zero_of_not_mem (hfirst r hr)
        omega
      · have := ih hrest hq
        have := Piece.count_output_le text hfirst
        omega

/-- A text changes when an edit takes out a character that no edit brings in. -/
theorem applyAll_ne {text : String} {edits : List Edit} {e : Edit}
    (hedits : ∀ e ∈ edits, e.Placed text.toList) (he : e ∈ edits) (hpos : e.Covers pos)
    (hc : CharAt text.toList pos c) (hnew : ∀ e ∈ edits, c ∉ e.replacement.toList) :
  applyAll text edits ≠ text
  := by
  intro heq
  have htiles := tiles_pieces hedits
  have hnew : ∀ q ∈ pieces text edits, ∀ r, q.replacement = some r → c ∉ r.toList := by
    intro q hq r hr
    obtain ⟨e, he, rfl⟩ := exists_replacement hedits hq hr
    exact hnew e he
  obtain ⟨q, hq, hlo, hhi⟩ := htiles.exists_mem hc (Nat.zero_le _)
  have hreplaced : q.replacement ≠ none :=
    fun hkept => not_kept_of_mem hedits he hpos hq hkept ⟨hlo, hhi⟩
  obtain ⟨r, hr⟩ := Option.ne_none_iff_exists'.mp hreplaced
  have hlt := htiles.count_output_lt hnew hq hr hc hlo hhi
  rw [← toList_applyAll, heq, dropBytes_zero] at hlt
  exact Nat.lt_irrefl _ hlt

end Edit

/-! ### Directives -/

/-- A directive holds a number sign. -/
theorem hash_mem_of_isDirective {text : String} {switches : Switches}
    (h : isDirective text switches = true) :
  '#' ∈ text.toList
  := by
  cases hparse : Directive.parse text 0 with
  | none => simp [isDirective, hparse] at h
  | some d =>
      simp only [Directive.parse] at hparse
      split at hparse
      · simp at hparse
      · next head rest hwords =>
        have hmem : head ∈ wordsFrom [] text.toList := by
          rw [← words, hwords]
          exact List.mem_cons_self
        obtain ⟨name, hname, -⟩ := Option.map_eq_some_iff.mp hparse
        have hhash : '#' ∈ head := by
          unfold Directive.headName? at hname
          split at hname
          · simp
          · simp
          · simp at hname
        exact (mem_of_mem_wordsFrom hmem hhash).resolve_left (by simp)

/-- A character of a comment stands in the text in the span of the comment. -/
theorem Source.Comment.Located.exists_charAt {text : List Char} {c : Comment} {d : Char}
    (h : c.Located text) (hd : d ∈ c.text.toList) :
  ∃ pos, CharAt text pos d ∧ c.span.lo ≤ pos ∧ pos < c.span.hi
  := by
  obtain ⟨mid, rest, hstands, hhi, hsub⟩ := h
  obtain ⟨front, back, rfl⟩ := List.append_of_mem (hsub.subset hd)
  refine ⟨c.span.lo + byteLength front, ⟨back ++ rest, ?_⟩, by omega, ?_⟩
  · exact Stands.append (by simpa using hstands)
  · have := d.utf8Size_pos
    simp only [byteLength_append, byteLength_cons] at hhi
    omega

variable {text : String} {parsed : Parsed} {ranges : List LineRange} {switches : Switches}

/-- A text with a directive changes. -/
theorem code_elide_ne {c : Comment} (hsound : parsed.Sound text.toList) (hc : c ∈ parsed.comments)
    (hdirective : isDirective c.text switches = true) :
  (elide text parsed ranges switches).code ≠ text
  := by
  obtain ⟨pos, hpos, hlo, hhi⟩ :=
    (hsound.comments c hc).exists_charAt (hash_mem_of_isDirective hdirective)
  rw [Elision.code_elide]
  refine Edit.applyAll_ne (e := ⟨c.span.lo, c.span.hi, ""⟩) (c := '#') ?_ ?_ ⟨hlo, hhi⟩ hpos ?_
  · exact fun edit hedit => Elision.placed_of_mem_edits hsound hedit
  · apply List.mem_append_right
    exact List.mem_map.mpr ⟨c.span, Elision.mem_directives_iff.mpr ⟨c, hc, hdirective, rfl⟩, rfl⟩
  · intro edit hedit
    have hmem : edit.replacement ∈ Elision.replacements := by
      obtain h | ⟨s, -, rfl⟩ := Elision.mem_edits_cases hedit
      · exact h.mem_replacements
      · simp [Elision.replacements]
    simp only [Elision.replacements, List.mem_cons, List.not_mem_nil, or_false] at hmem
    obtain h | h | h := hmem <;> rw [h] <;> decide

end Prune
