import Mathlib.Data.List.Basic
import Prune.Proofs.Comments
import Prune.Proofs.Program.Cutting

/-!
# What comes of a program

Processing a program that no range cuts through, and the lists of which lose no hole, gives the text
of a program again, which is read as the tree that is left of its own (`Program.Closed.process_eq`).
For the directives that are resolved are those in its comments (`Program.Closed.ranges_eq`), and
what is cut out is what goes of it (`Program.Closed.cut`): statements and comments with their lines,
and members of lists with their separators.
-/

namespace Prune

open Text Source

namespace Program

variable {read : Reader} {p : Program} {ranges : List LineRange} {switches : Switches} {o : Options}
  {path : String} {pos line : Nat} {tail : List Char} {c : Comment}

/-- No carriage return stands in a program. -/
theorem Closed.noReturn (h : p.Closed read) :
  '\r' ∉ p.text
  := by
  induction p generalizing read with
  | nil => simp [Program.text]
  | blank indent next ih => simp [Program.text, h.1.noReturn, ih h.2]
  | remark indent r next ih =>
      simp [Program.text, h.1.noReturn, h.2.1.noReturn, ih h.2.2]
  | phrase indent s next ih =>
      simp [Program.text, h.1.noReturn, h.2.1.noReturn, ih h.2.2]
  | compound indent f body foot next ihbody ih =>
      obtain ⟨hindent, hfoot, ⟨inner, hf, hbody⟩, hnext⟩ := h
      simp [Program.text, hindent.noReturn, hfoot.noReturn, hf.noReturn, ihbody hbody, ih hnext]
  | listing indent f cells next ih =>
      obtain ⟨hindent, ⟨member, holes, hf, hcells⟩, hnext⟩ := h
      simp [Program.text, Compound.code, hindent.noReturn, hf.noReturn,
        Cells.noReturn hcells hf.leaf, ih hnext]

theorem isDirective_eq_false {text : String} (h : Directive.parse text 0 = none) :
  isDirective text switches = false
  := by
  rw [isDirective, h]

/-- The directives of a program are comments on lines of their own. -/
theorem Closed.marks_eq (h : p.Closed read) :
  ((p.comments pos).filter fun c => isDirective c.text switches).map Comment.span
    = p.marks switches pos
  := by
  induction p generalizing read pos with
  | nil => rfl
  | blank indent next ih => exact ih h.2
  | remark indent r next ih =>
      simp only [Program.comments, Program.marks, List.filter_cons]
      split
      · rw [List.map_cons, ih h.2.2]
      · exact ih h.2.2
  | phrase indent s next ih =>
      have hplain : (s.comments.map (Comment.move (pos + byteLength indent))).filter
          (fun c => isDirective c.text switches) = [] := by
        rw [List.filter_eq_nil_iff, List.forall_mem_map]
        intro c hc
        rw [Comment.move, isDirective_eq_false (h.2.1.plain c hc)]
        exact Bool.false_ne_true
      rw [Program.comments, List.filter_append, hplain, List.nil_append, ih h.2.2]
      rfl
  | compound indent f body foot next ihbody ih =>
      obtain ⟨-, -, ⟨inner, -, hbody⟩, hnext⟩ := h
      rw [Program.comments, List.filter_append, List.map_append, ihbody hbody, ih hnext]
      rfl
  | listing indent f cells next ih =>
      rw [Program.comments, List.filter_append, List.map_append, ih h.2.2]
      rfl

/-- The comments of a program start in it. -/
theorem Closed.comment_bounds (h : p.Closed read) (hc : c ∈ p.comments pos) :
  pos ≤ c.span.lo ∧ c.span.lo < pos + byteLength p.text
  := by
  induction p generalizing read pos with
  | nil => simp [Program.comments] at hc
  | blank indent next ih =>
      have := ih h.2 hc
      have := le_behind pos indent []
      rw [end_blank]
      omega
  | remark indent r next ih =>
      have hle := le_behind pos indent r.code
      have hpos := byteLength_pos h.2.1.ne_nil
      rw [end_remark]
      obtain rfl | hc := List.mem_cons.mp hc
      · simp only [Program.behind]
        omega
      · have := ih h.2.2 hc
        omega
  | phrase indent s next ih =>
      have hle := le_behind pos indent s.code
      rw [end_phrase]
      obtain hc | hc := List.mem_append.mp hc
      · obtain ⟨d, hd, rfl⟩ := List.mem_map.mp hc
        have := h.2.1.inside d hd
        simp only [Comment.move, Span.move, Program.behind]
        omega
      · have := ih h.2.2 hc
        omega
  | compound indent f body foot next ihbody ih =>
      obtain ⟨-, -, ⟨inner, -, hbody⟩, hnext⟩ := h
      have hle := le_behind pos indent f.front
      have hle' := le_behind (Program.behind pos indent f.front + byteLength body.text) foot f.back
      rw [end_compound]
      obtain hc | hc := List.mem_append.mp hc
      · have := ihbody hbody hc
        omega
      · have := ih hnext hc
        omega
  | listing indent f cells next ih =>
      have hle := le_behind pos indent (f.code cells)
      have hcode := behind_code pos indent f cells
      rw [end_listing]
      obtain hc | hc := List.mem_append.mp hc
      · have := Cells.comments_bounds hc
        omega
      · have := ih h.2.2 hc
        omega

/-- The comments of a program stand behind each other. -/
theorem Closed.pairwise_comments (h : p.Closed read) :
  (p.comments pos).Pairwise fun a b => a.span.lo < b.span.lo
  := by
  induction p generalizing read pos with
  | nil => exact .nil
  | blank indent next ih => exact ih h.2
  | remark indent r next ih =>
      refine List.pairwise_cons.mpr ⟨fun c hc => ?_, ih h.2.2⟩
      have hlo := (h.2.2.comment_bounds hc).1
      rw [Program.behind] at hlo
      simp only
      omega
  | phrase indent s next ih =>
      refine List.pairwise_append.mpr ⟨?_, ih h.2.2, fun c hc d hd => ?_⟩
      · rw [List.pairwise_map]
        exact h.2.1.ordered.imp fun hlt => Nat.add_lt_add_left hlt _
      · obtain ⟨c', hc', rfl⟩ := List.mem_map.mp hc
        have hlt := h.2.1.inside c' hc'
        have hlo := (h.2.2.comment_bounds hd).1
        rw [Program.behind] at hlo
        simp only [Comment.move, Span.move]
        omega
  | compound indent f body foot next ihbody ih =>
      obtain ⟨-, -, ⟨inner, -, hbody⟩, hnext⟩ := h
      refine List.pairwise_append.mpr ⟨ihbody hbody, ih hnext, fun c hc d hd => ?_⟩
      have hlt := (hbody.comment_bounds hc).2
      have hlo := (hnext.comment_bounds hd).1
      have := le_behind (Program.behind pos indent f.front + byteLength body.text) foot f.back
      omega
  | listing indent f cells next ih =>
      have hcode := behind_code pos indent f cells
      refine List.pairwise_append.mpr ⟨?_, ih h.2.2, fun c hc d hd => ?_⟩
      · apply (Row.pairwise_comments _ _).imp_of_mem
        intro c d hc _ hle
        have := Cells.comments_bounds hc
        omega
      · have := Cells.comments_bounds hc
        have hlo := (h.2.2.comment_bounds hd).1
        omega

/-- The line of a comment in a list. -/
theorem lineAt_comment {e : Elision} {cells : Cells} {rest : List Char}
    (hplace : e.At pos line (cells.text ++ rest)) (hc : c ∈ cells.comments 0) :
  lineAt e.starts (c.move pos).span.lo = line + feeds (takeBytes c.span.lo cells.text)
  := by
  have hstands : Stands cells.text (cells.text ++ []) 0 := by
    rw [List.append_nil]
    exact Stands.zero _
  obtain ⟨post, pre, htext, hpre⟩ := Cells.boundary_comments hstands hc
  rw [htext, List.append_assoc] at hplace
  rw [htext, ← hpre, takeBytes_byteLength, ← hplace.append.line, Comment.move, Span.move, hpre]

/-- The directives in the comments of a program are those between statements and in lists. -/
theorem Closed.filterMap_comments {e : Elision} (h : p.Closed read)
    (hplace : e.At pos line (p.text ++ tail)) :
  (p.comments pos).filterMap (fun c => Directive.parse c.text (lineAt e.starts c.span.lo))
    = (p.remarks line).filterMap fun c => Directive.parse c.1 c.2
  := by
  induction p generalizing read pos line tail with
  | nil => rfl
  | blank indent next ih =>
      simp only [Program.text, List.append_assoc, List.cons_append] at hplace
      exact ih h.2 (hplace.indent h.1).feed
  | remark indent r next ih =>
      simp only [Program.text, List.append_assoc, List.cons_append] at hplace
      have ih := ih h.2.2 (hplace.behind h.1)
      rw [Program.comments, Program.remarks, List.filterMap_cons, List.filterMap_cons, ih,
        (hplace.indent h.1).line]
  | phrase indent s next ih =>
      simp only [Program.text, List.append_assoc, List.cons_append] at hplace
      have ih := ih h.2.2 (hplace.behind h.1)
      have hplain : (s.comments.map (Comment.move (pos + byteLength indent))).filterMap
          (fun c => Directive.parse c.text (lineAt e.starts c.span.lo)) = [] := by
        rw [List.filterMap_eq_nil_iff, List.forall_mem_map]
        intro c hc
        rw [Directive.parse_eq_map, Comment.move, h.2.1.plain c hc, Option.map_none]
      rw [Program.comments, List.filterMap_append, hplain, List.nil_append, ih]
      rfl
  | compound indent f body foot next ihbody ih =>
      obtain ⟨hindent, hfoot, ⟨inner, hf, hbody⟩, hnext⟩ := h
      simp only [Program.text, List.append_assoc, List.cons_append] at hplace
      have hinside := hplace.behind hindent
      rw [Program.comments, List.filterMap_append, ihbody hbody hinside,
        ih hnext (hinside.append.behind hfoot), Program.remarks, List.filterMap_append]
  | listing indent f cells next ih =>
      obtain ⟨hindent, -, hnext⟩ := h
      simp only [Program.text, List.append_assoc, List.cons_append] at hplace
      have hbehind := hplace.behind hindent
      rw [feeds_code] at hbehind
      simp only [Compound.code, List.append_assoc] at hplace
      have hlist := (hplace.indent hindent).append
      rw [Program.comments, List.filterMap_append, ih hnext hbehind, Program.remarks,
        List.filterMap_append, ← Nat.add_zero (pos + _ + _), Cells.comments_move,
        List.filterMap_map, Cells.remarks, List.filterMap_map]
      congr 1
      apply List.filterMap_congr
      intro c hc
      exact congrArg _ (lineAt_comment hlist hc)

/-- What is known of a program. -/
theorem Closed.sits (h : p.Closed read) (ranges : List LineRange) (switches : Switches) :
  p.Sits (Elision.ofParsed p.source p.parsed ranges switches) switches 0 1 []
  := by
  have htext : (Elision.ofParsed p.source p.parsed ranges switches).text = p.text :=
    String.toList_ofList
  have hdirectives : (Elision.ofParsed p.source p.parsed ranges switches).directives
      = p.marks switches 0 := h.marks_eq
  refine ⟨?_, ?_, ?_⟩
  · rw [List.append_nil, ← htext]
    apply Elision.At.whole
    · rw [htext]
      change lineStartsFrom 0 (withoutMark p.source.toList) = _
      rw [h.withoutMark_source]
    · rw [htext]
      exact h.noReturn
  · intro d hd
    rw [hdirectives] at hd
    exact (h.marks_bounds hd).2.1
  · intro d hd
    rw [hdirectives] at hd
    exact .inl hd

theorem Closed.sourceComments_eq (h : p.Closed read) :
  sourceComments p.source p.parsed
    = (p.comments 0).map (SourceComment.of (lineStarts p.source))
  := by
  have hpairwise : p.parsed.comments.Pairwise fun a b => a.span.lo < b.span.lo :=
    h.pairwise_comments
  have hnodup : (p.parsed.comments.map fun c => c.span.lo).Nodup := by
    rw [List.Nodup, List.pairwise_map]
    exact hpairwise.imp fun hlt => Nat.ne_of_lt hlt
  rw [sourceComments_eq_sortBy hnodup, sortBy_of_pairwise]
  · rfl
  · rw [List.pairwise_map]
    exact hpairwise.imp fun hlt => decide_eq_true (Nat.le_of_lt hlt)

/-- The directives that are resolved are those of comments on lines of their own. -/
theorem Closed.collectDirectives_eq (h : p.Closed read) :
  collectDirectives ((sourceComments p.source p.parsed).map
      fun c => (c.comment.text, c.firstLine))
    = collectDirectives (p.remarks 1)
  := by
  have hplace := (h.sits [] []).place
  rw [h.sourceComments_eq, collectDirectives, collectDirectives, List.map_map, List.filterMap_map]
  exact congrArg _ (h.filterMap_comments hplace)

theorem Closed.ranges_eq (h : p.Closed read) (o : Options) :
  (processParsed p.source p.parsed o).ranges = p.ranges o
  := by
  simp only [processParsed, h.collectDirectives_eq, Program.ranges]

/-- The edits of a program take out what goes of its statements, and its directives. -/
theorem Closed.edits_eq (h : p.Closed read) (ranges : List LineRange) (switches : Switches) :
  (Elision.ofParsed p.source p.parsed ranges switches).edits p.parsed.tree
    = p.taken (Elision.ofParsed p.source p.parsed ranges switches) switches 0
  := by
  have hdirectives : (Elision.ofParsed p.source p.parsed ranges switches).directives
      = p.marks switches 0 := h.marks_eq
  have hvisit (e : Elision) : e.visit "null" p.parsed.tree = e.visitBlock (p.trees 0) := by
    simp [parsed, Elision.visit, Elision.visitAll, Elision.append_none]
  rw [Elision.edits, hvisit, hdirectives]
  rfl

/-- Processing takes out of a program what goes of it, and nothing else. -/
theorem Closed.cut (h : p.Closed read) (hwhole : p.Whole ranges 1)
    (hholes : p.KeepsHoles (Elision.ofParsed p.source p.parsed ranges switches) 0) :
  Cut (Elision.ofParsed p.source p.parsed ranges switches) switches
    ((Elision.ofParsed p.source p.parsed ranges switches).edits p.parsed.tree) p 0 1 []
  where
    sits := h.sits ranges switches
    start := ⟨[], by rw [List.append_nil]; exact String.toList_ofList, rfl, rfl⟩
    whole := hwhole
    holes := hholes
    proper edit hedit := by
      rw [h.edits_eq] at hedit
      exact ((h.sits ranges switches).takesWithin_of_mem_taken h hwhole hedit).1
    mem edit hedit := by
      rw [h.edits_eq]
      exact hedit
    out edit hedit := by
      rw [h.edits_eq] at hedit
      exact .inr (.inr hedit)

/-- What comes of a program is the text of the program that is left of it. -/
theorem Closed.code_eq (h : p.Closed read) {p' : Program} (hwhole : p.Whole ranges 1)
    (hholes : p.KeepsHoles (Elision.ofParsed p.source p.parsed ranges switches) 0)
    (hleaves : Leaves (Elision.ofParsed p.source p.parsed ranges switches)
      ((Elision.ofParsed p.source p.parsed ranges switches).edits p.parsed.tree) read 0 p p') :
  (elide p.source p.parsed ranges switches).code = p'.source
  := by
  have htext : p.source.toList = p.text := String.toList_ofList
  have hstart : Boundary p.source.toList 0 := (Stands.zero _).boundary
  have hend : Boundary p.source.toList (byteLength p.text) := ⟨[], p.text, by simp [htext], rfl⟩
  have hleft : Edit.standing p.source.toList _ 0 _ = _ := hleaves.text
  have hcode := Edit.toList_applyAll_of_proper (h.cut hwhole hholes).proper hstart hend
    (Nat.zero_le _)
  rw [Nat.zero_add] at hleft
  rw [hleft, htext, Edit.standing_of_le (Nat.le_refl _), Edit.standing_of_le (Nat.le_refl _),
    List.nil_append, List.append_nil] at hcode
  rw [Elision.code_elide, ← String.toList_inj, hcode, source, String.toList_ofList]

/-- A program that no range cuts through, and the lists of which lose no hole, can be processed.
What comes of it is the text of a program, which has the tree that is left of the tree of the
program.  -/
theorem Closed.process_eq (h : p.Closed (items path)) {o : Options}
    (hwhole : p.Whole (p.ranges o) 1)
    (hholes : p.KeepsHoles (Elision.ofParsed p.source p.parsed (p.ranges o) o.switches) 0) :
  ∃ processed, ∃ p' : Program, process p.source path o = some processed ∧
    processed.ranges = p.ranges o ∧ processed.output.code = p'.source ∧
    parseSource processed.output.code path = some p'.parsed ∧
    p'.parsed.tree.shape
      = ((Elision.ofParsed p.source p.parsed (p.ranges o) o.switches).pruned p.parsed.tree).shape
  := by
  obtain ⟨p', hleaves⟩ := (h.cut hwhole hholes).exists_leaves h
  have hcode : (processParsed p.source p.parsed o).output.code = p'.source := by
    rw [← h.code_eq hwhole hholes hleaves, ← h.ranges_eq]
    rfl
  refine ⟨processParsed p.source p.parsed o, p', ?_, h.ranges_eq o, hcode, ?_, ?_⟩
  · exact process_of_parse h.parseSource_eq h.not_marked o
  · rw [hcode]
    exact hleaves.closed.parseSource_eq
  · have hpruned (e : Elision) : e.pruned p.parsed.tree
        = .node .file ⟨0, byteLength p.text⟩ [.series .block (e.pruneBlock (p.trees 0))] := by
      simp [parsed, Elision.pruned, Elision.prune, Elision.pruneAll]
    rw [hpruned, parsed]
    simp only [Tree.shape, Tree.shapes, hleaves.trees 0]

end Program

end Prune
