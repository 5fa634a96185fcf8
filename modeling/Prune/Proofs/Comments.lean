import Mathlib.Data.List.Nodup
import Prune.Proofs.Elision.Likeness
import Prune.Proofs.Process
import Prune.Proofs.Sorting

/-!
# Comments in any order

The comments of a source text may be given in any order.  They are collected in the order in which
they stand (`pairwise_sourceComments`), and the edits that take directives out are sorted among all
edits (`Edit.sortBy_append_of_perm`), so that nothing that comes of a text depends on the order in
which its comments are given, as long as no two of them start at one place (`process_eq_of_perm`).

Comments without places are put in the order of their lines.  Their directives are resolved alike if
the comments of each line are given in one order (`collectDirectives_eq_of_filter`).
-/

namespace Prune

open Source (Comment Parsed Tree)

variable {text path : String} {parsed : Parsed} {comments : List Comment}

/-! ### The comments of a source text -/

theorem exists_of_mem_sourceComments {c : SourceComment} (h : c ∈ sourceComments text parsed) :
  ∃ k ∈ parsed.comments, SourceComment.of (lineStarts text) k = c
  := List.mem_map.mp (mem_sortBy_iff.mp ((sublist_eraseRepsBy _ _).subset h))

/-- The comments of a source text stand behind each other. -/
theorem pairwise_sourceComments (text : String) (parsed : Parsed) :
  (sourceComments text parsed).Pairwise fun a b => a.comment.span.lo < b.comment.span.lo
  := by
  apply pairwise_eraseRepsBy _ _ (pairwise_key_sortBy _)
  · intro a b hle hne
    exact Nat.lt_of_le_of_ne hle (by simpa using hne)
  · exact fun hab hbc => Nat.lt_of_lt_of_le hab hbc

/-- No comment is left out if no two of them start at one place. -/
theorem sourceComments_eq_sortBy (hstarts : (parsed.comments.map fun c => c.span.lo).Nodup) :
  sourceComments text parsed = sortBy (fun a b => a.comment.span.lo ≤ b.comment.span.lo)
    (parsed.comments.map (SourceComment.of (lineStarts text)))
  := by
  let comments := parsed.comments.map (SourceComment.of (lineStarts text))
  have hstarts : (comments.map fun c => c.comment.span.lo).Nodup := by
    rw [List.map_map]
    exact hstarts
  have hne : (sortBy (fun a b => a.comment.span.lo ≤ b.comment.span.lo) comments).Pairwise
      fun a b => a.comment.span.lo ≠ b.comment.span.lo := by
    apply List.pairwise_map.mp
    exact ((perm_sortBy _ comments).map _).nodup_iff.mpr hstarts
  apply eraseRepsBy_of_pairwise
  exact hne.imp fun hne => beq_eq_false_iff_ne.mpr hne

theorem perm_sourceComments (hstarts : (parsed.comments.map fun c => c.span.lo).Nodup) :
  ((sourceComments text parsed).map SourceComment.comment).Perm parsed.comments
  := by
  have hcomments : (parsed.comments.map (SourceComment.of (lineStarts text))).map
      SourceComment.comment = parsed.comments := by
    rw [List.map_map]
    exact List.map_id _
  rw [sourceComments_eq_sortBy hstarts]
  conv_rhs => rw [← hcomments]
  exact (perm_sortBy _ _).map _

/-- Comments are collected alike in whatever order they are given, if no two of them start at one
place. -/
theorem sourceComments_eq_of_perm (hstarts : (parsed.comments.map fun c => c.span.lo).Nodup)
    (hperm : comments.Perm parsed.comments) :
  sourceComments text { parsed with comments := comments } = sourceComments text parsed
  := by
  have hstarts' : (comments.map fun c => c.span.lo).Nodup := (hperm.map _).nodup_iff.mpr hstarts
  rw [sourceComments_eq_sortBy hstarts, sourceComments_eq_sortBy hstarts']
  apply sortBy_eq_of_perm key_trans key_total (hperm.map _)
  intro a ha b hb hab hba
  obtain ⟨c, hc, rfl⟩ := List.mem_map.mp ha
  obtain ⟨d, hd, rfl⟩ := List.mem_map.mp hb
  congr 1
  apply List.inj_on_of_nodup_map hstarts hc hd
  exact Nat.le_antisymm (of_decide_eq_true hab) (of_decide_eq_true hba)

/-! ### Edits -/

theorem sortBy_append {α : Type} (le : α → α → Bool) (as bs : List α) :
  sortBy le (as ++ bs) = as.foldr (insertBy le) (sortBy le bs)
  := List.foldr_append

/-- Edits that start at different places are put in order alike, in whatever order they are given
behind others. -/
theorem Edit.sortBy_append_of_perm {edits others : List Edit}
    (hstarts : (edits.map Edit.lo).Nodup) (hperm : others.Perm edits) (found : List Edit) :
  sortBy precedes (found ++ others) = sortBy precedes (found ++ edits)
  := by
  have hsorted : sortBy precedes others = sortBy precedes edits := by
    apply sortBy_eq_of_perm _ _ hperm
    · intro a ha b hb hab hba
      apply List.inj_on_of_nodup_map hstarts ha hb
      rw [precedes_iff] at hab hba
      omega
    · exact fun a b c => precedes_trans
    · exact fun a b => precedes_of_not_precedes
  rw [sortBy_append, sortBy_append, hsorted]

/-- What is left of a text, and whether it can be cut, does not depend on the order of its
comments. -/
theorem elide_eq_of_perm (hstarts : (parsed.comments.map fun c => c.span.lo).Nodup)
    (hperm : comments.Perm parsed.comments) (ranges : List LineRange) (switches : Switches) :
  elide text { parsed with comments := comments } ranges switches
      = elide text parsed ranges switches ∧
    canElide text { parsed with comments := comments } ranges switches
      = canElide text parsed ranges switches
  := by
  let e := Elision.ofParsed text parsed ranges switches
  let e' := Elision.ofParsed text { parsed with comments := comments } ranges switches
  have hdirectives : e'.directives.Perm e.directives := (hperm.filter _).map _
  have hothers : e'.others.Perm e.others := (hperm.filter _).map _
  have hvisit : e'.visit = e.visit := Elision.visit_eq_of_perm rfl rfl rfl hdirectives hothers
  have hdistinct : ((e.directives.map fun s => (⟨s.lo, s.hi, ""⟩ : Edit)).map Edit.lo).Nodup := by
    simp only [e, Elision.ofParsed, List.map_map]
    exact hstarts.sublist (List.filter_sublist.map _)
  have hedits : sortBy Edit.precedes (e'.edits parsed.tree)
      = sortBy Edit.precedes (e.edits parsed.tree) := by
    rw [Elision.edits, hvisit, Edit.sortBy_append_of_perm hdistinct (hdirectives.map _),
      Elision.edits]
  have hcode : Edit.applyAll text (e'.edits parsed.tree)
      = Edit.applyAll text (e.edits parsed.tree) := by
    rw [Edit.applyAll, Edit.applyAll, hedits]
  constructor
  · change Output.mk (Edit.applyAll text (e'.edits parsed.tree)) (e'.visit "null" parsed.tree).removed
      (e'.visit "null" parsed.tree).spliced e'.directives.length = _
    rw [hcode, hvisit, hdirectives.length_eq]
    rfl
  · change Edit.areSound text (e'.edits parsed.tree) = Edit.areSound text (e.edits parsed.tree)
    rw [Edit.areSound, Edit.areSound, hedits]

/-! ### Directives -/

theorem Directive.line_of_parse {s : String} {line : Nat} {d : Directive}
    (h : parse s line = some d) :
  d.line = line
  := by
  unfold parse at h
  split at h
  · contradiction
  · obtain ⟨name, -, rfl⟩ := Option.map_eq_some_iff.mp h
    rfl

theorem collectDirectives_eq_of_filter {comments others : List (String × Nat)}
    (h : ∀ line, others.filter (fun c => c.2 == line) = comments.filter fun c => c.2 == line) :
  collectDirectives others = collectDirectives comments
  := by
  have hline (k : Nat) (comments : List (String × Nat)) :
      (comments.filterMap fun c => Directive.parse c.1 c.2).filter (fun d => d.line == k)
        = (comments.filter fun c => c.2 == k).filterMap fun c => Directive.parse c.1 c.2 := by
    rw [List.filter_filterMap, List.filterMap_filter]
    congr 1
    funext c
    cases hparse : Directive.parse c.1 c.2 with
    | none => simp
    | some d => simp [Option.filter, Directive.line_of_parse hparse]
  apply sortBy_eq_of_filter
  intro k
  rw [hline, hline, h]

/-! ### Processing -/

/-- What comes of a text does not depend on the order in which its comments are given, as long as no
two of them start at one place, and neither does whether something comes of it.  Without places,
comments may change their order if those of each line keep theirs. -/
theorem process_eq_of_perm (hparse : parseSource text path = some parsed)
    (hstarts : (parsed.comments.map fun c => c.span.lo).Nodup)
    (hperm : comments.Perm parsed.comments) (o : Options) :
  sourceComments text { parsed with comments := comments } = sourceComments text parsed ∧
    (sourceComments text parsed).Pairwise (fun a b => a.comment.span.lo < b.comment.span.lo) ∧
    ((sourceComments text parsed).map SourceComment.comment).Perm parsed.comments ∧
    processParsed text { parsed with comments := comments } o = processParsed text parsed o ∧
    process text path o = processParsed? text { parsed with comments := comments } o ∧
    ∀ (r : Resolver) (comments others : List (String × Nat)),
      (∀ line, others.filter (fun c => c.2 == line) = comments.filter fun c => c.2 == line) →
      r.resolve (collectDirectives others) = r.resolve (collectDirectives comments)
  := by
  have hcomments : sourceComments text { parsed with comments := comments }
      = sourceComments text parsed := sourceComments_eq_of_perm hstarts hperm
  have hprocess : processParsed text { parsed with comments := comments } o
      = processParsed text parsed o := by
    rw [processParsed, processParsed]
    simp only [hcomments, (elide_eq_of_perm hstarts hperm _ _).1]
  refine ⟨hcomments, pairwise_sourceComments text parsed, perm_sourceComments hstarts, hprocess, ?_,
    ?_⟩
  · rw [process_eq, hparse, Option.bind_some, processParsed?, processParsed?, hprocess,
      (elide_eq_of_perm hstarts hperm _ _).2]
  · intro r comments others h
    rw [collectDirectives_eq_of_filter h]

theorem process_eq_of_perm_reverse :
  let text := "// #if A\nx; // why\n// #endif\n"
  let parsed := (parseSource text "a.js").get (by decide +kernel)
  (parsed.comments.map fun c => c.text) = [" #if A", " why", " #endif"] ∧
    parsed.comments.reverse ≠ parsed.comments ∧
    process text "a.js" {}
      = some (processParsed text { parsed with comments := parsed.comments.reverse } {})
  := by
  intro text parsed
  have hparse : parseSource text "a.js" = some parsed := (Option.some_get _).symm
  have hstarts : (parsed.comments.map fun c => c.span.lo).Nodup := by decide +kernel
  have hperm := process_eq_of_perm hparse hstarts (List.reverse_perm _) {}
  obtain ⟨p, hp⟩ : ∃ p, process text "a.js" {} = some p :=
    ⟨_, process_of_parse hparse (by decide) {}⟩
  have hp' := hp
  rw [hperm.2.2.2.2.1] at hp'
  obtain ⟨-, rfl⟩ := processParsed?_eq_some_iff.mp hp'
  exact ⟨by decide +kernel, by decide +kernel, hp⟩

end Prune
