import Mathlib.Data.List.Basic
import Prune.Proofs.Elision.Walk
import Prune.Proofs.Source.Layout

/-!
# Separators behind members

The search for the separator behind a member (`Elision.separatorFrom`) and the reader of the gap
there (`Source.Gap.readFrom`) walk through the same comments, as long as no comment ends at a line
break that the search takes for a part of it (`Source.Comment.EndsLine`).  The search finds the
separator at which the gap ends, if nothing but blanks of ASCII and comments stands before
(`Elision.agrees_of_endsLine`).  So what stands before a separator that is found are blanks and
comments that were read (`Elision.comment_of_lt_separator`).
-/

namespace Prune

open Text Source

/-- Whether a comment up to the end of a line, if it is one, ends at a line feed, at a carriage
return with a line feed, or at the end of the text. -/
def Source.Comment.EndsLine (text : List Char) (c : Comment) : Prop :=
  ∀ line rest, Stands text ('/' :: '/' :: line) c.span.lo → Stands text rest c.span.hi →
    rest = [] ∨ rest.head? = some '\n' ∨ ['\r', '\n'] <+: rest

/-- It is enough to look at what stands behind a comment. -/
theorem Source.Comment.endsLine_of_dropBytes {text : List Char} {c : Comment}
    (h : dropBytes c.span.hi text = [] ∨ (dropBytes c.span.hi text).head? = some '\n' ∨
      ['\r', '\n'] <+: dropBytes c.span.hi text) :
  c.EndsLine text
  := by
  intro line rest _ hrest
  rwa [hrest.dropBytes_eq] at h

namespace Source.Gap

variable {cs : List Char} {pos n : Nat} {mode : Mode} {comments : List Comment}
  {newline flawed : Bool} {k : Comment}

theorem subset_readFrom (mode : Mode) (comments : List Comment) (newline flawed : Bool)
    (pos : Nat) (cs : List Char) :
  comments ⊆ (readFrom mode comments newline flawed pos cs).comments
  := by
  fun_induction readFrom mode comments newline flawed pos cs with
  | case2 | case12 | case18 => simp_all [push]
  | _ => simp_all

theorem le_pos_readFrom (mode : Mode) (comments : List Comment) (newline flawed : Bool)
    (pos : Nat) (cs : List Char) :
  pos ≤ (readFrom mode comments newline flawed pos cs).pos
  := by
  fun_induction readFrom mode comments newline flawed pos cs with
  | case1 | case2 | case3 | case4 | case11 => exact Nat.le_refl _
  | _ => exact Nat.le_of_add_right_le (by assumption)

/-- Whether the comment that is being read, if there is one, starts at or behind an offset. -/
def Mode.From (n : Nat) : Mode → Prop
  | .blank => True
  | .line lo _ _ | .block lo _ _ | .closing lo _ => n ≤ lo

/-- The comments of a gap are those that were read before, and others that start where the reading
goes on, or behind. -/
theorem mem_readFrom (hmode : mode.From n) (hpos : n ≤ pos)
    (hk : k ∈ (readFrom mode comments newline flawed pos cs).comments) :
  k ∈ comments ∨ n ≤ k.span.lo
  := by
  fun_induction readFrom mode comments newline flawed pos cs with
  | case1 | case3 | case4 | case11 => exact .inl (List.mem_reverse.mp hk)
  | case2 =>
      obtain rfl | hk := List.mem_cons.mp (List.mem_reverse.mp hk)
      · exact .inr hmode
      · exact .inl hk
  | case5 | case6 =>
      rename_i ih
      exact ih trivial (by omega) hk
  | case7 | case8 =>
      rename_i ih
      exact ih hpos (by omega) hk
  | case9 | case10 =>
      -- the comment starts behind the first character of its mark, or behind the mark
      rename_i ih
      exact ih (Nat.le_add_right_of_le hpos) (by omega) hk
  | case12 | case18 =>
      rename_i ih
      obtain hk | hk := ih trivial (by omega) hk
      · obtain rfl | hk := List.mem_cons.mp hk
        · exact .inr hmode
        · exact .inl hk
      · exact .inr hk
  | _ =>
      rename_i ih
      exact ih hmode (by omega) hk

end Source.Gap

namespace Elision

/-- How the search for a separator and the reading of a gap stand to each other: which comment they
are in, and from where on. -/
inductive InStep (text cs : List Char) (pos : Nat) : Gap → Source.Gap.Mode → Nat → Prop where
  | blank : InStep text cs pos .blank .blank pos
  | line {line read : List Char} {lo skip : Nat} (hlo : Stands text ('/' :: '/' :: line) lo) :
      InStep text cs pos .lineComment (.line lo skip read) lo
  /-- The comment ended at the carriage return before a line feed. -/
  | ended {tail : List Char} (hcs : cs = '\n' :: tail) : InStep text cs pos .lineComment .blank pos
  | block {read : List Char} {lo skip : Nat} :
      InStep text cs pos (.blockComment skip) (.block lo skip read) lo
  | closing {read : List Char} {lo : Nat} : InStep text cs pos .closing (.closing lo read) lo

theorem isLineEnd_or_isGapBlank {c : Char} (h : isAsciiBlank c = true) :
  isLineEnd c = true ∨ isGapBlank c = true
  := by
  simp only [isAsciiBlank, Bool.or_eq_true, beq_iff_eq] at h
  obtain (((rfl | rfl) | rfl) | rfl) | h := h
  · exact .inr rfl
  · exact .inr rfl
  · exact .inl rfl
  · exact .inl rfl
  · exact .inr (by simp [isGapBlank, h])

theorem isBlank_of_isAsciiBlank {c : Char} (h : isAsciiBlank c = true) :
  isBlank c = true
  := by
  simp only [isAsciiBlank, Bool.or_eq_true, beq_iff_eq] at h
  obtain (((rfl | rfl) | rfl) | rfl) | h := h
  · rfl
  · rfl
  · rfl
  · rfl
  · simp [isBlank, h]

theorem eq_of_mark {a b c : Char} {cs : List Char} (h : (c == a && cs.head? == some b) = true) :
  c = a ∧ ∃ tail, cs = b :: tail
  := by
  simp only [Bool.and_eq_true, beq_iff_eq] at h
  exact ⟨h.1, List.head?_eq_some_iff.mp h.2⟩

variable {text cs : List Char} {pos start lo hi sep : Nat} {gap : Gap} {mode : Source.Gap.Mode}
  {g : Source.Gap} {comments known : List Comment} {newline flawed : Bool} {separators : List Char}
  {rule : Rule} {c : Char}

theorem eq_of_mem_separators (h : c ∈ rule.separators) :
  c = ',' ∨ c = ';'
  := by
  cases rule <;> simp_all [Rule.separators]

theorem separatorFrom_separator (hc : c ∈ rule.separators) :
  separatorFrom rule.separators .blank pos (c :: cs) = some pos
  := by
  have hmarks : isAsciiBlank c = false ∧ (c == '/') = false := by
    obtain rfl | rfl := eq_of_mem_separators hc
    · exact ⟨rfl, rfl⟩
    · exact ⟨rfl, rfl⟩
  rw [separatorFrom]
  simp [hmarks, hc]

/-- Whether nothing stands between two offsets but blanks of ASCII and comments. -/
def Vacant (text : List Char) (comments : List Comment) (lo hi : Nat) : Prop :=
  ∀ p d, CharAt text p d → lo ≤ p → p < hi →
    isAsciiBlank d = true ∨ ∃ k ∈ comments, k.span.lo ≤ p ∧ p < k.span.hi

namespace Vacant

theorem refl (text : List Char) (comments : List Comment) (pos : Nat) :
  Vacant text comments pos pos
  := by
  intro p d _ hlo hhi
  omega

theorem mono (h : Vacant text comments lo hi) (hle : lo ≤ pos) :
  Vacant text comments pos hi
  := fun p d hd hlo hhi => h p d hd (by omega) hhi

/-- A blank in front makes no difference. -/
theorem blank_iff (hcs : Stands text (c :: cs) pos) (hc : isAsciiBlank c = true) :
  Vacant text comments (pos + c.utf8Size) hi ↔ Vacant text comments pos hi
  := by
  refine ⟨fun h p d hd hlo hhi => ?_, fun h => h.mono (Nat.le_add_right _ _)⟩
  obtain ⟨rfl, rfl⟩ | hle := hd.eq_or_le hcs hlo
  · exact .inl hc
  · exact h p d hd hle hhi

/-- A comment in front makes no difference. -/
theorem comment_iff {k : Comment} (hk : k ∈ comments) (hle : k.span.lo ≤ k.span.hi) :
  Vacant text comments k.span.hi hi ↔ Vacant text comments k.span.lo hi
  := by
  refine ⟨fun h p d hd hlo hhi => ?_, fun h => h.mono hle⟩
  by_cases hp : p < k.span.hi
  · exact .inr ⟨k, hk, hlo, hp⟩
  · exact h p d hd (by omega) hhi

/-- What is read outside of comments is a blank of ASCII, if nothing but those and comments stands
in the gap. -/
theorem isAsciiBlank (hvacant : Vacant text g.comments pos g.pos) (hcs : Stands text (c :: cs) pos)
    (hbefore : ∀ k ∈ comments, k.span.hi ≤ pos) (hmode : mode.From (pos + 1))
    (hgap : Source.Gap.readFrom mode comments newline flawed (pos + c.utf8Size) cs = g) :
  isAsciiBlank c = true
  := by
  have hsize := c.utf8Size_pos
  have hle : pos + c.utf8Size ≤ g.pos := by
    rw [← hgap]
    apply Source.Gap.le_pos_readFrom
  obtain h | ⟨k, hk, hlo, hhi⟩ := hvacant pos c ⟨cs, hcs⟩ (Nat.le_refl _) (by omega)
  · exact h
  · rw [← hgap] at hk
    obtain hk | hk := Source.Gap.mem_readFrom hmode (by omega) hk
    · have := hbefore k hk
      omega
    · omega

/-- What is neither a blank of ASCII nor the mark of a comment ends a gap in which nothing but blanks
of ASCII and comments stands. -/
theorem rest_eq (hvacant : Vacant text g.comments pos g.pos) (hcs : Stands text (c :: cs) pos)
    (hbefore : ∀ k ∈ comments, k.span.hi ≤ pos)
    (hgap : Source.Gap.readFrom .blank comments newline flawed pos (c :: cs) = g)
    (hblank : Text.isAsciiBlank c = false) (hline : ¬(c == '/' && cs.head? == some '/') = true)
    (hblock : ¬(c == '/' && cs.head? == some '*') = true) :
  g.rest = c :: cs
  := by
  have hnot {newline : Bool} {mode : Source.Gap.Mode} (hmode : mode.From (pos + 1))
      (hgap : Source.Gap.readFrom mode comments newline flawed (pos + c.utf8Size) cs = g) : False := by
    rw [hvacant.isAsciiBlank hcs hbefore hmode hgap] at hblank
    contradiction
  rw [Source.Gap.readFrom, if_neg hline, if_neg hblock] at hgap
  have hmode : Source.Gap.Mode.blank.From (pos + 1) := trivial
  split at hgap
  · exact (hnot hmode hgap).elim
  · split at hgap
    · exact (hnot hmode hgap).elim
    · split at hgap
      · exact (hnot (Nat.le_refl _) hgap).elim
      · split at hgap
        · exact (hnot (Nat.add_le_add_left (by decide) _) hgap).elim
        · rw [← hgap]

end Vacant

theorem readFrom_separator (hc : c ∈ rule.separators) :
  Source.Gap.readFrom .blank comments newline flawed pos (c :: cs)
    = ⟨comments.reverse, newline, flawed, pos, c :: cs⟩
  := by
  obtain rfl | rfl := eq_of_mem_separators hc
  · rfl
  · rfl

/-- Whether a gap ends at a separator, with nothing but blanks of ASCII and comments from an offset on. -/
def EndsAt (text : List Char) (rule : Rule) (g : Source.Gap) (start sep : Nat) : Prop :=
  (∃ c ∈ rule.separators, g.rest.head? = some c) ∧ g.pos = sep ∧ Vacant text g.comments start sep

theorem endsAt_congr (h : Vacant text g.comments lo sep ↔ Vacant text g.comments hi sep) :
  EndsAt text rule g lo sep ↔ EndsAt text rule g hi sep
  := and_congr_right fun _ => and_congr_right fun _ => h

/-- A search for a separator and the reading of a gap, in step at an offset of a text. -/
structure Alongside (text cs : List Char) (pos : Nat) (gap : Gap) (start : Nat)
    (mode : Source.Gap.Mode) (comments : List Comment) (newline flawed : Bool) (g : Source.Gap) :
    Prop where
  step : InStep text cs pos gap mode start
  stands : Stands text cs pos
  le : start ≤ pos
  before : ∀ k ∈ comments, k.span.hi ≤ start
  read : Source.Gap.readFrom mode comments newline flawed pos cs = g

/-- Whether a search through some characters comes out where the reading of the gap does. -/
def Agrees (text : List Char) (rule : Rule) (g : Source.Gap) (sep : Nat) (cs : List Char) : Prop :=
  ∀ ⦃pos gap start mode comments newline flawed⦄,
    Alongside text cs pos gap start mode comments newline flawed g →
      (separatorFrom rule.separators gap pos cs = some sep ↔ EndsAt text rule g start sep)

namespace Alongside

/-- The search and the reading both go into a comment, or on in it. -/
theorem onward (h : Alongside text (c :: cs) pos gap start mode comments newline flawed g)
    {gap' : Gap} {mode' : Source.Gap.Mode} {newline' : Bool}
    (hstep : InStep text cs (pos + c.utf8Size) gap' mode' start)
    (hread : Source.Gap.readFrom mode' comments newline' flawed (pos + c.utf8Size) cs = g) :
  Alongside text cs (pos + c.utf8Size) gap' start mode' comments newline' flawed g
  := ⟨hstep, h.stands.cons, Nat.le_add_right_of_le h.le, h.before, hread⟩

/-- The search and the reading both start anew behind a character. -/
theorem anew (h : Alongside text (c :: cs) pos gap start mode comments newline flawed g)
    {gap' : Gap} {mode' : Source.Gap.Mode} {newline' flawed' : Bool} {comments' : List Comment}
    (hstep : InStep text cs (pos + c.utf8Size) gap' mode' (pos + c.utf8Size))
    (hcomments : ∀ k ∈ comments', k ∈ comments ∨ k.span.hi ≤ pos + c.utf8Size)
    (hread : Source.Gap.readFrom mode' comments' newline' flawed' (pos + c.utf8Size) cs = g) :
  Alongside text cs (pos + c.utf8Size) gap' (pos + c.utf8Size) mode' comments' newline' flawed' g
  := by
  refine ⟨hstep, h.stands.cons, Nat.le_refl _, fun k hk => ?_, hread⟩
  obtain hk | hk := hcomments k hk
  · exact Nat.le_trans (h.before k hk) (Nat.le_add_right_of_le h.le)
  · exact hk

end Alongside

namespace Agrees

theorem nil : Agrees text rule g sep []
  := by
  rintro pos gap start mode comments newline flawed ⟨-, -, -, -, rfl⟩
  cases mode <;> simp [separatorFrom, EndsAt, Source.Gap.readFrom]

/-- What is neither a blank nor the mark of a comment ends the gap, or is no separator. -/
theorem token (h : Alongside text (c :: cs) pos .blank pos .blank comments newline flawed g)
    (hblank : isAsciiBlank c = false) (hline : ¬(c == '/' && cs.head? == some '/') = true)
    (hblock : ¬(c == '/' && cs.head? == some '*') = true) :
  (if rule.separators.contains c then some pos else none) = some sep ↔ EndsAt text rule g pos sep
  := by
  constructor
  · intro hsep
    obtain ⟨hc, hsep⟩ := Option.ite_none_right_eq_some.mp hsep
    obtain rfl := Option.some.inj hsep
    have hc := List.contains_iff_mem.mp hc
    rw [← h.read, readFrom_separator hc]
    exact ⟨⟨c, hc, rfl⟩, rfl, .refl _ _ _⟩
  · rintro ⟨⟨s, hs, hhead⟩, rfl, hvacant⟩
    have hrest := hvacant.rest_eq h.stands h.before h.read hblank hline hblock
    rw [hrest] at hhead
    obtain rfl := Option.some.inj hhead
    rw [← h.read, readFrom_separator hs, if_pos (List.contains_iff_mem.mpr hs)]

theorem blank (ih : Agrees text rule g sep cs)
    (h : Alongside text (c :: cs) pos .blank pos .blank comments newline flawed g) :
  separatorFrom rule.separators .blank pos (c :: cs) = some sep ↔ EndsAt text rule g pos sep
  := by
  have hread := h.read
  rw [separatorFrom]
  split
  · next hc =>
    rw [← endsAt_congr (Vacant.blank_iff h.stands hc)]
    rw [Source.Gap.readFrom] at hread
    by_cases hend : isLineEnd c = true
    · rw [if_pos hend] at hread
      exact ih (h.anew .blank (fun _ => .inl) hread)
    · rw [if_neg hend, if_pos ((isLineEnd_or_isGapBlank hc).resolve_left hend)] at hread
      exact ih (h.anew .blank (fun _ => .inl) hread)
  · next hblank =>
    split
    · next hc =>
      obtain ⟨rfl, tail, rfl⟩ := eq_of_mark hc
      change Source.Gap.readFrom (.line pos 1 []) comments newline flawed _ _ = g at hread
      exact ih (h.onward (.line h.stands) hread)
    · next hline =>
      split
      · next hc =>
        obtain ⟨rfl, tail, rfl⟩ := eq_of_mark hc
        change Source.Gap.readFrom (.block pos 1 []) comments newline flawed _ _ = g at hread
        exact ih (h.onward .block hread)
      · next hblock => exact token h (by simpa using hblank) hline hblock

/-- A line comment goes on up to the end of its line, where the search has to end it as well. -/
theorem line (ih : Agrees text rule g sep cs) (hends : ∀ k ∈ g.comments, k.EndsLine text)
    {line read : List Char} {skip : Nat} (hlo : Stands text ('/' :: '/' :: line) start)
    (h : Alongside text (c :: cs) pos .lineComment start (.line start skip read) comments newline
      flawed g) :
  separatorFrom rule.separators .lineComment pos (c :: cs) = some sep ↔ EndsAt text rule g start sep
  := by
  have hread := h.read
  rw [Source.Gap.readFrom] at hread
  rw [separatorFrom]
  split at hread
  · let k : Comment := ⟨String.ofList read.reverse, ⟨start, pos⟩⟩
    have hk : k ∈ g.comments := by
      rw [← hread]
      exact Source.Gap.subset_readFrom _ _ _ _ _ _ List.mem_cons_self
    have hcomments : ∀ k' ∈ k :: comments, k' ∈ comments ∨ k'.span.hi ≤ pos + c.utf8Size :=
      List.forall_mem_cons.mpr ⟨.inr (Nat.le_add_right pos _), fun _ => .inl⟩
    have hvacant (hc : isAsciiBlank c = true) : Vacant text g.comments (pos + c.utf8Size) sep
        ↔ Vacant text g.comments start sep :=
      (Vacant.blank_iff h.stands hc).trans (Vacant.comment_iff hk h.le)
    obtain hend | hend | ⟨tail, hend⟩ := hends k hk line _ hlo h.stands
    · contradiction
    · obtain rfl : c = '\n' := by simpa using hend
      rw [← endsAt_congr (hvacant rfl)]
      exact ih (h.anew .blank hcomments hread)
    · obtain ⟨rfl, rfl⟩ := List.cons.inj hend
      rw [← endsAt_congr (hvacant rfl)]
      exact ih (h.anew (.ended rfl) hcomments hread)
  · next hend =>
    have hc : (c == '\n') = false := by
      rw [beq_eq_false_iff_ne]
      rintro rfl
      exact hend rfl
    rw [hc]
    split at hread
    · exact ih (h.onward (.line hlo) hread)
    · exact ih (h.onward (.line hlo) hread)

/-- In a block comment both look for the star of its end, behind the mark of its start. -/
theorem block (ih : Agrees text rule g sep cs) {read : List Char} {skip : Nat}
    (h : Alongside text (c :: cs) pos (.blockComment skip) start (.block start skip read) comments
      newline flawed g) :
  separatorFrom rule.separators (.blockComment skip) pos (c :: cs) = some sep
    ↔ EndsAt text rule g start sep
  := by
  have hread := h.read
  rw [Source.Gap.readFrom] at hread
  cases skip with
  | succ skip => exact ih (h.onward .block hread)
  | zero =>
      rw [if_neg (by omega)] at hread
      rw [separatorFrom]
      split at hread
      · next hc =>
        rw [if_pos hc]
        exact ih (h.onward .closing hread)
      · next hc =>
        rw [if_neg hc]
        exact ih (h.onward .block hread)

/-- Behind the end of a block comment both start anew. -/
theorem closing (ih : Agrees text rule g sep cs) {read : List Char}
    (h : Alongside text (c :: cs) pos .closing start (.closing start read) comments newline flawed
      g) :
  separatorFrom rule.separators .closing pos (c :: cs) = some sep ↔ EndsAt text rule g start sep
  := by
  have hread := h.read
  rw [Source.Gap.readFrom] at hread
  let k : Comment := ⟨String.ofList read.reverse, ⟨start, pos + c.utf8Size⟩⟩
  have hk : k ∈ g.comments := by
    rw [← hread]
    exact Source.Gap.subset_readFrom _ _ _ _ _ _ List.mem_cons_self
  have hcomments : ∀ k' ∈ k :: comments, k' ∈ comments ∨ k'.span.hi ≤ pos + c.utf8Size :=
    List.forall_mem_cons.mpr ⟨.inr (Nat.le_refl _), fun _ => .inl⟩
  have hvacant : Vacant text g.comments (pos + c.utf8Size) sep ↔ Vacant text g.comments start sep :=
    Vacant.comment_iff hk (Nat.le_add_right_of_le h.le)
  rw [← endsAt_congr hvacant]
  exact ih (h.anew .blank hcomments hread)

end Agrees

/-- A search finds the separator at which the gap ends, if nothing but blanks of ASCII and comments
stands before: one step of the search for each step of the reading. -/
theorem agrees_of_endsLine (hends : ∀ k ∈ g.comments, k.EndsLine text) :
  Agrees text rule g sep cs
  := by
  induction cs with
  | nil => exact .nil
  | cons c cs ih =>
      intro pos gap start mode comments newline flawed h
      cases h.step with
      | blank => exact ih.blank h
      | line hlo => exact ih.line hends hlo h
      | ended htail =>
          -- the line feed behind the carriage return at which the comment ended
          obtain ⟨rfl, rfl⟩ := List.cons.inj htail
          rw [← endsAt_congr (Vacant.blank_iff h.stands rfl)]
          exact ih (h.anew .blank (fun _ => .inl) h.read)
      | block => exact ih.block h
      | closing => exact ih.closing h

/-- A separator that a search finds stands at or behind the place where the search starts. -/
theorem charAt_separatorFrom (hcs : Stands text cs pos)
    (hsep : separatorFrom separators gap pos cs = some sep) :
  pos ≤ sep ∧ ∃ c ∈ separators, CharAt text sep c
  := by
  induction cs generalizing gap pos with
  | nil => simp [separatorFrom] at hsep
  | cons c cs ih =>
      have hrest {gap : Gap} (hsep : separatorFrom separators gap (pos + c.utf8Size) cs = some sep) :
          pos ≤ sep ∧ ∃ c ∈ separators, CharAt text sep c := by
        obtain ⟨hle, h⟩ := ih hcs.cons hsep
        exact ⟨by omega, h⟩
      unfold separatorFrom at hsep
      split at hsep
      · -- outside of comments
        split at hsep <;> [exact hrest hsep; skip]
        split at hsep <;> [exact hrest hsep; skip]
        split at hsep <;> [exact hrest hsep; skip]
        split at hsep
        · next hc =>
          simp only [Option.some.injEq] at hsep
          subst hsep
          exact ⟨Nat.le_refl _, c, by simpa using hc, cs, hcs⟩
        · simp at hsep
      · exact hrest hsep
      · exact hrest hsep
      · split at hsep
        · exact hrest hsep
        · exact hrest hsep
      · exact hrest hsep

variable {e : Elision}

/-- The search for the separator behind an offset between characters reads the text from there on. -/
theorem separatorAfter_eq (hcs : Stands e.text cs pos) :
  e.separatorAfter? separators pos = separatorFrom separators .blank pos cs
  := by
  rw [separatorAfter?, hcs.dropBytes?_eq]
  rfl

/-- The search behind an offset finds the separator at which the gap there ends, if nothing but
blanks of ASCII and comments stands before. -/
theorem separatorAfter_eq_some_iff_read (hcs : Stands e.text cs pos)
    (hends : ∀ k ∈ (Source.Gap.read newline pos cs).comments, k.EndsLine e.text) :
  e.separatorAfter? rule.separators pos = some sep ↔
    EndsAt e.text rule (Source.Gap.read newline pos cs) pos sep
  := by
  rw [separatorAfter_eq hcs]
  exact agrees_of_endsLine hends ⟨.blank, hcs, Nat.le_refl _, List.forall_mem_nil _, rfl⟩

/-- The separator behind an offset between characters. -/
theorem charAt_separatorAfter (hpos : Boundary e.text pos)
    (hsep : e.separatorAfter? separators pos = some sep) :
  pos ≤ sep ∧ ∃ c ∈ separators, CharAt e.text sep c
  := by
  rw [separatorAfter_eq hpos.stands_dropBytes] at hsep
  exact charAt_separatorFrom hpos.stands_dropBytes hsep

/-- What stands before the separator behind an offset are blanks and comments, which are known where
the offset is settled. -/
theorem comment_of_lt_separator (hpos : Boundary e.text pos)
    (hsep : e.separatorAfter? rule.separators pos = some sep) (hsettled : Settled e.text known pos)
    (hends : ∀ k ∈ known, k.EndsLine e.text) {p : Nat} {d : Char} (hd : CharAt e.text p d)
    (hblank : isBlank d = false) (hle : pos ≤ p) (hlt : p < sep) :
  ∃ k ∈ known, k.span.lo ≤ p ∧ p < k.span.hi
  := by
  have hstands := hpos.stands_dropBytes
  have hhead : (dropBytes pos e.text).head? ≠ some '<' := by
    intro h
    obtain ⟨tail, htail⟩ := List.head?_eq_some_iff.mp h
    have hless : '<' ∉ rule.separators := fun h => by simpa using eq_of_mem_separators h
    rw [separatorAfter_eq hstands, htail] at hsep
    simp [separatorFrom, isAsciiBlank, hless] at hsep
  obtain ⟨newline, hknown⟩ := hsettled _ hstands hhead
  obtain ⟨-, -, hvacant⟩ := (separatorAfter_eq_some_iff_read hstands
    fun k hk => hends k (hknown hk)).mp hsep
  obtain h | ⟨k, hk, hp⟩ := hvacant p d hd hle hlt
  · rw [isBlank_of_isAsciiBlank h] at hblank
    contradiction
  · exact ⟨k, hknown hk, hp⟩

end Elision

end Prune
