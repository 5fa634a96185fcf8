import Mathlib.Data.List.Basic
import Prune.Project
import Prune.Proofs.Elision.Changes
import Prune.Proofs.Elision.Results
import Prune.Proofs.Process

/-!
# What comes of a source text

What a source text loses when it is processed, and what it does not: only what may go is deleted
(`code_elide_drops_droppable`), all that is due goes unless it is spared (`code_elide_keeps_no_due`),
for each element stands what it comes to (`code_elide_elements`), and a text changes exactly when one
of its comments is a directive (`changed_faithful`).
-/

namespace Prune

open Text Source

variable {text path : String} {parsed : Parsed} {ranges : List LineRange} {switches : Switches}

theorem assembles_elide (hsound : parsed.Sound text.toList) :
  Edit.Assembles text (elide text parsed ranges switches).code
    (Edit.pieces text ((Elision.ofParsed text parsed ranges switches).edits parsed.tree))
  := by
  rw [Elision.code_elide]
  exact Edit.assembles_applyAll fun edit hedit => Elision.placed_of_mem_edits hsound hedit

/-- Only what may go is deleted: the text that is left consists of pieces of the source text in their
order, and of what is replaced all but blanks may go. -/
theorem code_elide_drops_droppable (hparse : parseSource text path = some parsed)
    (hmark : ¬Marked text.toList) (hends : ∀ c ∈ parsed.comments, c.EndsLine text.toList)
    (ranges : List LineRange) (switches : Switches) :
  ∃ qs, Edit.Assembles text (elide text parsed ranges switches).code qs ∧
    ∀ q ∈ qs, ∀ r, q.replacement = some r →
      r ∈ ["", "\x7b\x7d", "null"] ∧
      ∀ pos c, CharAt text.toList pos c → isBlank c = false → q.lo ≤ pos → pos < q.hi →
        (Elision.ofParsed text parsed ranges switches).Droppable parsed.tree parsed.comments pos
  := by
  have hsound := sound_parseSource hparse hmark
  exact ⟨_, assembles_elide hsound, fun q hq r hr => ⟨Elision.replacement_of_mem_pieces hsound hq hr,
    fun pos c hc hblank hlo hhi =>
      Elision.droppable_of_replaced hsound hends hq hr hc hblank hlo hhi⟩⟩

/-- A statement and the directives around it go. -/
theorem code_elide_drops_droppable_block :
  let text := "// #if A\nf();\n// #endif\ng();\n"
  ∃ parsed qs, parseSource text "a.js" = some parsed ∧ Edit.Assembles text "g();\n" qs ∧
    ∀ q ∈ qs, ∀ r, q.replacement = some r →
      r ∈ ["", "\x7b\x7d", "null"] ∧
      ∀ pos c, CharAt text.toList pos c → isBlank c = false → q.lo ≤ pos → pos < q.hi →
        (Elision.ofParsed text parsed [⟨1, 3⟩] []).Droppable parsed.tree parsed.comments pos
  := by
  intro text
  have h : (parseSource text "a.js").any (fun parsed =>
      (elide text parsed [⟨1, 3⟩] []).code == "g();\n" &&
        parsed.comments.all fun c => (dropBytes c.span.hi text.toList).head? == some '\n') = true := by
    decide +kernel
  obtain ⟨parsed, hparse, h⟩ := (Option.any_eq_true _ _).mp h
  simp only [Bool.and_eq_true, beq_iff_eq, List.all_eq_true] at h
  have hends (c : Comment) (hc : c ∈ parsed.comments) : c.EndsLine text.toList :=
    Comment.endsLine_of_dropBytes (.inr (.inl (h.2 c hc)))
  obtain ⟨qs, hqs, hdrops⟩ := code_elide_drops_droppable hparse (by decide) hends [⟨1, 3⟩] []
  exact ⟨parsed, qs, hparse, h.1 ▸ hqs, hdrops⟩

/-- All that is due goes unless it is spared, and so do all directives: of the pieces into which the
edits cut the source text, those that stay hold none of their bytes, and in the place of the others
stands next to nothing. -/
theorem code_elide_keeps_no_due (hparse : parseSource text path = some parsed)
    (hmark : ¬Marked text.toList) (ranges : List LineRange) (switches : Switches) :
  let e := Elision.ofParsed text parsed ranges switches
  let qs := Edit.pieces text (e.edits parsed.tree)
  Edit.Assembles text (elide text parsed ranges switches).code qs ∧
    ∀ q ∈ qs,
      (∀ r, q.replacement = some r → r ∈ ["", "\x7b\x7d", "null"]) ∧
      (q.replacement = none → ∀ pos, q.lo ≤ pos → pos < q.hi →
        (∀ c ∈ parsed.comments, isDirective c.text switches = true → ¬c.span.Has pos) ∧
        ∀ t, e.Due parsed.tree t → ¬e.Spares parsed.tree t → ¬t.span.Has pos)
  := by
  intro e qs
  have hsound := sound_parseSource hparse hmark
  refine ⟨assembles_elide hsound, fun q hq => ⟨fun r hr => ?_, fun hkept pos hlo hhi => ⟨?_, ?_⟩⟩⟩
  · exact Elision.replacement_of_mem_pieces hsound hq hr
  · intro c hc hdirective hpos
    exact Elision.not_kept_of_directive hsound hc hdirective hq hkept hpos ⟨hlo, hhi⟩
  · intro t hdue hspares hpos
    exact Elision.not_kept_of_due hsound hdue hspares hq hkept hpos ⟨hlo, hhi⟩

/-- Only what is neither due nor a directive stays. -/
theorem code_elide_keeps_no_due_block :
  let text := "// #if A\nf();\n// #endif\ng();\n"
  ∃ parsed, parseSource text "a.js" = some parsed ∧
    let e := Elision.ofParsed text parsed [⟨1, 3⟩] []
    let qs := Edit.pieces text (e.edits parsed.tree)
    qs.filterMap Edit.Piece.replacement = ["", "", ""] ∧ Edit.Assembles text "g();\n" qs ∧
      ∀ q ∈ qs,
        (∀ r, q.replacement = some r → r ∈ ["", "\x7b\x7d", "null"]) ∧
        (q.replacement = none → ∀ pos, q.lo ≤ pos → pos < q.hi →
          (∀ c ∈ parsed.comments, isDirective c.text [] = true → ¬c.span.Has pos) ∧
          ∀ t, e.Due parsed.tree t → ¬e.Spares parsed.tree t → ¬t.span.Has pos)
  := by
  intro text
  have h : (parseSource text "a.js").any (fun parsed =>
      (elide text parsed [⟨1, 3⟩] []).code == "g();\n" &&
        (Edit.pieces text
          ((Elision.ofParsed text parsed [⟨1, 3⟩] []).edits parsed.tree)).filterMap
            Edit.Piece.replacement == ["", "", ""]) = true := by
    decide +kernel
  obtain ⟨parsed, hparse, h⟩ := (Option.any_eq_true _ _).mp h
  rw [Bool.and_eq_true, beq_iff_eq, beq_iff_eq] at h
  obtain ⟨hqs, hkeeps⟩ := code_elide_keeps_no_due hparse (by decide) [⟨1, 3⟩] []
  exact ⟨parsed, hparse, h.2, h.1 ▸ hqs, hkeeps⟩

/-- The tree that is reached from a tree by going down to parts. -/
def Source.Tree.at? (t : Tree) : List Nat → Option Tree
  | [] => some t
  | n :: path => (t.parts[n]?).bind fun p => p.at? path

theorem Source.Tree.below_of_at? {t u : Tree} {path : List Nat} (h : t.at? path = some u) :
  t.Below u
  := by
  induction path generalizing t with
  | nil =>
      obtain rfl := Option.some.inj h
      exact .root
  | cons n path ih =>
      obtain ⟨p, hp, h⟩ := Option.bind_eq_some_iff.mp h
      exact .of_part (List.mem_of_getElem? hp) (ih h)

/-- A property in a decorator in front of an exported class that goes: all its lines lie in one
range, but it stays. -/
theorem code_elide_keeps_property :
  let text := "// #if A\n@d(\x7b\n  s: 1\n\x7d)\nexport class X \x7b\x7d\n// #endif\n"
  ∃ parsed p rule items t, parseSource text "a.ts" = some parsed ∧
    process text "a.ts" {} = some p ∧ parsed.tree.Below (.series rule items) ∧ t ∈ items ∧
    t.kind? = some .property ∧
    (Elision.ofParsed text parsed p.ranges []).excluded t.span = true ∧
    slice t.span.lo t.span.hi text.toList = "s: 1".toList ∧
    p.output.code = "@d(\x7b\n  s: 1\n\x7d)\n"
  := by
  intro text
  -- the way from the tree to the properties of the object
  let path := [0, 0, 0, 0, 0, 1, 0, 0]
  have h : (parseSource text "a.ts").any (fun parsed => (process text "a.ts" {}).any fun p =>
      (parsed.tree.at? path).any fun u => u.kind?.isNone && u.parts.any fun t =>
        t.kind? == some .property && (Elision.ofParsed text parsed p.ranges []).excluded t.span
          && slice t.span.lo t.span.hi text.toList == "s: 1".toList
          && p.output.code == "@d(\x7b\n  s: 1\n\x7d)\n") = true := by
    decide +kernel
  obtain ⟨parsed, hparsed, h⟩ := (Option.any_eq_true _ _).mp h
  obtain ⟨p, hp, h⟩ := (Option.any_eq_true _ _).mp h
  obtain ⟨u, hu, h⟩ := (Option.any_eq_true _ _).mp h
  rw [Bool.and_eq_true] at h
  obtain ⟨hseries, h⟩ := h
  obtain ⟨t, ht, h⟩ := List.any_eq_true.mp h
  simp only [Bool.and_eq_true, beq_iff_eq] at h
  obtain ⟨⟨⟨hkind, hgoes⟩, hslice⟩, hcode⟩ := h
  cases u with
  | node kind span parts => simp [Tree.kind?] at hseries
  | series rule items =>
      exact ⟨parsed, p, rule, items, t, hparsed, hp, Tree.below_of_at? hu, ht, hkind, hgoes, hslice,
        hcode⟩

/-! ### Elements -/

theorem orderly_ofParsed (hsound : parsed.Sound text.toList)
    (hends : ∀ c ∈ parsed.comments, c.EndsLine text.toList)
    (hparted : parsed.tree.Parted text.toList parsed.comments) :
  (Elision.ofParsed text parsed ranges switches).Orderly parsed.comments parsed.tree
  := by
  refine ⟨hsound.tree, hparted, hends, fun s hs => ?_⟩
  obtain ⟨c, hc, -, rfl⟩ := Elision.mem_directives_iff.mp hs
  refine ⟨c, hc, rfl, ?_⟩
  exact Elision.placed_of_mem_edits hsound
    (List.mem_append_right _ (List.mem_map.mpr ⟨c.span, hs, rfl⟩))

/-- For each element that is come to stands in the text that is left what the element comes to,
blanks apart. Those are counted whose place a child takes. That the parts of the tree stand apart is
not so of all trees that are read: where the reader goes on behind a slip it may read a statement of
no bytes (the example below). -/
theorem code_elide_elements (hparse : parseSource text path = some parsed)
    (hmark : ¬Marked text.toList) (hends : ∀ c ∈ parsed.comments, c.EndsLine text.toList)
    (hparted : parsed.tree.Parted text.toList parsed.comments) (ranges : List LineRange)
    (switches : Switches) :
  let e := Elision.ofParsed text parsed ranges switches
  let standing := Edit.standing text.toList (e.edits parsed.tree)
  (∀ v ∈ e.visited parsed.tree,
    (elide text parsed ranges switches).code.toList
        = standing 0 v.2.span.lo ++ standing v.2.span.lo v.2.span.hi
          ++ standing v.2.span.hi (byteLength text.toList + 1) ∧
      inked (standing v.2.span.lo v.2.span.hi) = inked (e.result v.1 v.2).toList) ∧
  (elide text parsed ranges switches).spliced
    = (e.visited parsed.tree).countP fun v => e.collapses v.2
  := by
  intro e standing
  have hsound := sound_parseSource hparse hmark
  have horderly : e.Orderly parsed.comments parsed.tree := orderly_ofParsed hsound hends hparted
  refine ⟨fun v hv => ⟨?_, Elision.inked_standing_of_mem_visited horderly hv⟩, ?_⟩
  · obtain ⟨hbelow, hvisited, -⟩ := Elision.isolates_of_mem_visited horderly hv
    have hplaced := (horderly.of_below hbelow).placed hvisited
    rw [Elision.code_elide]
    exact Edit.toList_applyAll_eq_standing
      (fun edit hedit => Elision.placed_of_mem_edits hsound hedit) hplaced.lo hplaced.hi hplaced.le
  · exact Elision.spliced_visit hparted.children "null"

/-- A child takes the place of an element whose start tag goes. -/
theorem code_elide_elements_child :
  let text := "const a = (\n  <A>\n    <B/>\n  </A>\n);\n"
  ∃ parsed, parseSource text "a.tsx" = some parsed ∧
    let e := Elision.ofParsed text parsed [⟨2, 2⟩] []
    let standing := Edit.standing text.toList (e.edits parsed.tree)
    (elide text parsed [⟨2, 2⟩] []).code = "const a = (\n  <B/>\n);\n" ∧
    (∀ v ∈ e.visited parsed.tree,
      (elide text parsed [⟨2, 2⟩] []).code.toList
          = standing 0 v.2.span.lo ++ standing v.2.span.lo v.2.span.hi
            ++ standing v.2.span.hi (byteLength text.toList + 1) ∧
        inked (standing v.2.span.lo v.2.span.hi) = inked (e.result v.1 v.2).toList) ∧
    (elide text parsed [⟨2, 2⟩] []).spliced
      = (e.visited parsed.tree).countP fun v => e.collapses v.2
  := by
  intro text
  have h : (parseSource text "a.tsx").any (fun parsed =>
      (elide text parsed [⟨2, 2⟩] []).code == "const a = (\n  <B/>\n);\n" &&
        parsed.comments.isEmpty && decide (parsed.tree.Parted text.toList parsed.comments))
      = true := by
    decide +kernel
  obtain ⟨parsed, hparse, h⟩ := (Option.any_eq_true _ _).mp h
  simp only [Bool.and_eq_true, beq_iff_eq, List.isEmpty_iff, decide_eq_true_eq] at h
  obtain ⟨⟨hcode, hcomments⟩, hparted⟩ := h
  have hends : ∀ c ∈ parsed.comments, c.EndsLine text.toList := by simp [hcomments]
  exact ⟨parsed, hparse, hcode,
    code_elide_elements hparse (by decide) hends hparted [⟨2, 2⟩] []⟩

-- The parenthesis that is missing is a slip that the reader goes on behind, with an empty statement.
example : (parseSource "if (a\n b();\n" "a.ts").any (fun parsed =>
    !decide (parsed.tree.Parted "if (a\n b();\n".toList parsed.comments)) = true := by
  decide +kernel

/-- Behind a byte order mark, an end tag may be left of an element whose place a child takes. -/
theorem code_elide_elements_ne_of_mark :
  let text := "\uFEFFconst a = (\n  <A>\n  <B/></A>\n);\n"
  ∃ parsed t, parseSource text "a.tsx" = some parsed ∧
    let e := Elision.ofParsed text parsed [⟨2, 2⟩] []
    ("null", t) ∈ e.visited parsed.tree ∧ e.collapses t = true ∧
    (elide text parsed [⟨2, 2⟩] []).code = "\uFEFFconst a = (\n  </A>\n);\n"
  := by
  intro text
  have h : (parseSource text "a.tsx").any (fun parsed =>
      ((Elision.ofParsed text parsed [⟨2, 2⟩] []).nested "null" parsed.tree).any fun v =>
        v.1 == "null" && (Elision.ofParsed text parsed [⟨2, 2⟩] []).collapses v.2 &&
          (elide text parsed [⟨2, 2⟩] []).code == "\uFEFFconst a = (\n  </A>\n);\n") = true := by
    decide +kernel
  obtain ⟨parsed, hparse, h⟩ := (Option.any_eq_true _ _).mp h
  obtain ⟨⟨r, t⟩, hnested, h⟩ := List.any_eq_true.mp h
  simp only [Bool.and_eq_true, beq_iff_eq] at h
  obtain ⟨⟨rfl, hcollapses⟩, hcode⟩ := h
  refine ⟨parsed, t, hparse, List.mem_flatMap.mpr ⟨_, hnested, ?_⟩, hcollapses, hcode⟩
  rw [Elision.visitedFrom_eq]
  exact List.mem_cons_self

/-! ### Changes -/

/-- Nothing counts as changed in a text of which no comment vanishes. -/
theorem changed_eq_false (h : ∀ c ∈ parsed.comments, isDirective c.text switches = false) :
  (elide text parsed [] switches).changed = false
  := by
  have hdirectives : (Elision.ofParsed text parsed [] switches).directives = [] :=
    Elision.directives_eq_nil h
  simp only [elide, hdirectives, List.length_nil]
  rw [Elision.visit_eq_none _ (Source.Tree.each_of_forall (Elision.stays_of_nil rfl hdirectives) _)]
  rfl

/-- A text of which a comment vanishes counts as changed. -/
theorem changed_eq_true {c : Comment} (hc : c ∈ parsed.comments)
    (hdirective : isDirective c.text switches = true) :
  (elide text parsed ranges switches).changed = true
  := by
  have : 0 < (Elision.ofParsed text parsed ranges switches).directives.length :=
    List.length_pos_of_mem (Elision.mem_directives_iff.mpr ⟨c, hc, hdirective, rfl⟩)
  simp [Output.changed, elide, this]

/-- A text counts as changed, and changes, exactly if one of its comments vanishes. -/
theorem changed_and_code_ne (hsound : parsed.Sound text.toList) (o : Options) :
  ((processParsed text parsed o).output.changed = true ↔
      ∃ c ∈ parsed.comments, isDirective c.text o.switches = true) ∧
    ((processParsed text parsed o).output.code ≠ text ↔
      ∃ c ∈ parsed.comments, isDirective c.text o.switches = true)
  := by
  by_cases h : ∃ c ∈ parsed.comments, isDirective c.text o.switches = true
  · obtain ⟨c, hc, hdirective⟩ := h
    have hchanged : (processParsed text parsed o).output.changed = true :=
      changed_eq_true hc hdirective
    have hcode : (processParsed text parsed o).output.code ≠ text :=
      code_elide_ne hsound hc hdirective
    exact ⟨iff_of_true hchanged ⟨c, hc, hdirective⟩, iff_of_true hcode ⟨c, hc, hdirective⟩⟩
  · have hno : ∀ c ∈ parsed.comments, isDirective c.text o.switches = false := by simpa using h
    have hchanged : (processParsed text parsed o).output.changed = false := by
      simp only [processParsed, resolve_sourceComments_eq hno]
      exact changed_eq_false hno
    have hcode : (processParsed text parsed o).output.code = text := by
      simp only [processParsed, resolve_sourceComments_eq hno]
      exact (elide_code_eq hno).2
    exact ⟨iff_of_false (by simp [hchanged]) h, iff_of_false (by simp [hcode]) h⟩

/-- A text counts as changed exactly if it changes. -/
theorem changed_iff_code_ne (hsound : parsed.Sound text.toList) (o : Options) :
  (processParsed text parsed o).output.changed = true ↔
    (processParsed text parsed o).output.code ≠ text
  := by
  obtain ⟨hchanged, hcode⟩ := changed_and_code_ne hsound o
  exact hchanged.trans hcode.symm

/-- A file that was processed could be read, and something came of its text. -/
theorem mem_processFiles {project : Project} {t : FileTree} {paths : List String}
    {file : String × Processed} (h : file ∈ (project.processFiles t paths).processed) :
  file.1 ∈ paths ∧ ∃ text, t.readText file.1 = .ok text ∧
    process text file.1 project.options = some file.2
  := by
  obtain ⟨path, processed⟩ := file
  simp only [Project.processFiles, List.mem_filterMap, List.mem_map] at h
  obtain ⟨_, ⟨path', hpath, rfl⟩, h⟩ := h
  obtain ⟨processed', hprocessed, heq⟩ := Option.map_eq_some_iff.mp h
  obtain ⟨rfl, rfl⟩ := Prod.mk.inj heq
  refine ⟨hpath, ?_⟩
  unfold Project.processFile at hprocessed
  split at hprocessed
  · contradiction
  · next text htext =>
    refine ⟨text, htext, ?_⟩
    rw [process, ← hprocessed]
    cases tryProcess text path' project.options <;> rfl

/-- A source text counts as changed exactly if it changes, and it changes exactly if one of its
comments is a directive. So the files that a build lists are those whose text changes. -/
theorem changed_faithful (o : Options) :
  (∀ text path parsed p, ¬Marked text.toList → parseSource text path = some parsed →
    process text path o = some p →
    (p.output.changed = true ↔ p.output.code ≠ text) ∧
    (p.output.code ≠ text ↔ ∃ c ∈ parsed.comments, isDirective c.text o.switches = true)) ∧
  ∀ (project : Project) (t : FileTree) (paths : List String),
    (∀ path ∈ paths, ∀ text, t.readText path = .ok text → ¬Marked text.toList) →
    (project.processFiles t paths).changed
      = (project.processFiles t paths).processed.filter fun file =>
          (t.readText file.1).toOption != some file.2.output.code
  := by
  constructor
  · intro text path parsed p hmark hparse hprocess
    obtain ⟨parsed', hparse', rfl⟩ := parsed_of_process hprocess
    obtain rfl := Option.some.inj (hparse.symm.trans hparse')
    have hsound := sound_parseSource hparse hmark
    exact ⟨changed_iff_code_ne hsound o, (changed_and_code_ne hsound o).2⟩
  · intro project t paths hmark
    apply List.filter_congr
    intro file hfile
    obtain ⟨hpath, text, htext, hprocess⟩ := mem_processFiles hfile
    obtain ⟨parsed, hparse, hp⟩ := parsed_of_process hprocess
    have hsound := sound_parseSource hparse (hmark _ hpath text htext)
    have hchanged := changed_iff_code_ne hsound project.options
    rw [← hp] at hchanged
    rw [Bool.eq_iff_iff, hchanged, htext, bne_iff_ne]
    simp [Except.toOption, eq_comm]

/-- A text with a directive changes, and counts as changed. -/
theorem changed_faithful_block :
  let text := "// #if A\nf();\n// #endif\ng();\n"
  ∃ p, process text "a.js" {} = some p ∧ p.output.changed = true ∧ p.output.code ≠ text
  := by
  intro text
  have h : (parseSource text "a.js").any (fun parsed => (process text "a.js" {}).any fun p =>
      p.output.changed) = true := by
    decide +kernel
  obtain ⟨parsed, hparse, h⟩ := (Option.any_eq_true _ _).mp h
  obtain ⟨p, hprocess, hchanged⟩ := (Option.any_eq_true _ _).mp h
  have hfaithful := (changed_faithful {}).1 text "a.js" parsed p (by decide) hparse hprocess
  exact ⟨p, hprocess, hchanged, hfaithful.1.mp hchanged⟩

end Prune
