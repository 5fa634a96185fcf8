import Prune.Proofs.Elision.Parting

/-!
# What is deleted around an element

The parts of a syntax tree do not overlap (`Source.Tree.Parted`), and so what is deleted because of
one part leaves the others alone.  A separator stands behind the member it is deleted with, and none
is looked for beyond a mark that is no comment, as there is one at both ends of an element.

It follows that of all edits that come out of a walk only those made for an element, or inside of it,
take out something of it (`Elision.Isolates`, `Elision.cell_visit`).
-/

namespace Prune

open Text Source

/-- Whether an edit takes out nothing of a span. -/
def Edit.Avoids (s : Span) (edit : Edit) : Prop :=
  ∀ pos, s.Has pos → ¬edit.Covers pos

namespace Elision

variable {e : Elision} {root p t d : Tree} {comments : List Comment} {edit : Edit} {rule : Rule}
  {items : List Tree} {sep : Nat} {s : Span}

/-! ### Separators -/

/-- A separator stands before all that is neither a blank nor a separator nor in a comment. -/
theorem separator_lt {pos : Nat} {c : Char} (hlaid : (Source.Tree.series rule items).Laid e.text comments)
    (hends : ∀ k ∈ comments, k.EndsLine e.text) (ht : t ∈ items) (hhole : isHole t = false)
    (hsep : e.separatorAfter? rule.separators t.span.hi = some sep) (hc : CharAt e.text pos c)
    (hblank : isBlank c = false) (hnot : c ∉ rule.separators)
    (hfree : ∀ k ∈ comments, ¬k.span.Has pos) (hle : t.span.hi ≤ pos) :
  sep < pos
  := by
  cases hlaid with
  | series _ hplaced hsettled =>
      have hhi := (hplaced t ht).hi
      have hseparated := isSeparated_of_separatorAfter hhi hsep
      have hsettled := (hsettled hseparated t ht).resolve_left (by simpa [isHole] using hhole)
      obtain ⟨-, c', hc', hchar⟩ := charAt_separatorAfter hhi hsep
      by_contra hge
      obtain rfl | hlt : pos = sep ∨ pos < sep := by omega
      · exact hnot (hchar.unique hc ▸ hc')
      · obtain ⟨k, hk, hpos⟩ := comment_of_lt_separator hhi hsep hsettled hends hc hblank
          hle hlt
        exact hfree k hk hpos

theorem greater_not_mem_separators (rule : Rule) :
  '>' ∉ rule.separators
  := by
  cases rule <;> decide

/-- What goes from the start of a member on and up to the separator behind it leaves alone what
stands apart from the member. -/
theorem avoids_member (hlaid : (Source.Tree.series rule items).Laid e.text comments)
    (hends : ∀ k ∈ comments, k.EndsLine e.text) (ht : t ∈ items) (hhole : isHole t = false)
    (hlt : t.span.lo < t.span.hi)
    (hsep : e.separatorAfter? rule.separators t.span.hi = some sep)
    (hs : s.Edged e.text comments) (hapart : t.span.Apart s) (hlo : t.span.lo ≤ edit.lo)
    (hhi : edit.hi = sep + 1) :
  edit.Avoids s
  := by
  intro pos ⟨hpos, hpos'⟩ ⟨hcovers, hcovers'⟩
  obtain hle | hle := hapart.le_or_le hlt hs.lt
  · have := separator_lt hlaid hends ht hhole hsep hs.first rfl (less_not_mem_separators rule)
      (fun k hk => (hs.free k hk).1) hle
    omega
  · omega

/-- Whether an edit takes out something of a tree below another, or of the text from a member of a
series below it up to the separator behind the member. -/
inductive Reaches (e : Elision) (root : Tree) (edit : Edit) : Prop where
  | inside {t : Tree} (ht : root.Below t) (hin : ∀ pos, edit.Covers pos → t.span.Has pos) :
      Reaches e root edit
  | behind {rule : Rule} {items : List Tree} {t : Tree} {sep : Nat}
      (hseries : root.Below (.series rule items)) (ht : t ∈ items) (hhole : isHole t = false)
      (hsep : e.separatorAfter? rule.separators t.span.hi = some sep)
      (hlo : t.span.lo ≤ edit.lo) (hhi : edit.hi = sep + 1) : Reaches e root edit

theorem Reason.reaches (hlaid : root.Laid e.text comments) (h : e.Reason root edit) :
  e.Reaches root edit
  := by
  cases h with
  | node ht _ _ | container ht _ _ => exact .inside ht.below fun _ hpos => hpos
  | member hseries ht hhole _ hsep => exact .behind hseries ht hhole hsep (Nat.le_refl _) rfl
  | @loose rule items kept sep hseries hkept hsep =>
      obtain ⟨front, back, rfl, hstays, -⟩ := hkept
      have hmem : kept ∈ front ++ kept :: back := List.mem_append_right _ List.mem_cons_self
      obtain ⟨-, hle, -, hhi⟩ := hlaid.placed (.item hseries hmem)
      obtain ⟨hle', -⟩ := boundary_separator hhi hsep
      refine .behind hseries hmem ?_ hsep (Nat.le_trans hle hle') rfl
      rw [goesOrHole, Bool.or_eq_false_iff] at hstays
      exact hstays.1
  | collapse ht _ _ => exact .inside ht fun _ hpos => hpos
  | front ht _ hchild hsurvives =>
      obtain ⟨⟨-, hle, -⟩, -, hle'⟩ := child_inside (hlaid.of_below ht) hchild hsurvives
      exact .inside ht fun _ hpos => ⟨hpos.1, Nat.lt_of_lt_of_le hpos.2 (Nat.le_trans hle hle')⟩
  | back ht _ hchild hsurvives =>
      obtain ⟨⟨-, hle, -⟩, hle', -⟩ := child_inside (hlaid.of_below ht) hchild hsurvives
      exact .inside ht fun _ hpos => ⟨Nat.le_trans (Nat.le_trans hle' hle) hpos.1, hpos.2⟩

theorem isSeparated_of_member (hlaid : (Source.Tree.series rule items).Laid e.text comments)
    (ht : t ∈ items) (hsep : e.separatorAfter? rule.separators t.span.hi = some sep) :
  rule.isSeparated = true
  := by
  cases hlaid with
  | series _ hplaced _ => exact isSeparated_of_separatorAfter (hplaced t ht).hi hsep

/-- An edit made in a tree leaves alone what stands apart from all that is below the tree. -/
theorem Reaches.avoids (h : e.Reaches root edit) (hlaid : root.Laid e.text comments)
    (hparted : root.Parted e.text comments) (hends : ∀ k ∈ comments, k.EndsLine e.text)
    (hs : s.Edged e.text comments) (hapart : ∀ u, root.Below u → u.span.Apart s) :
  edit.Avoids s
  := by
  cases h with
  | inside ht hin => exact fun pos hpos hcovers => hapart _ ht pos (hin pos hcovers) hpos
  | behind hseries ht hhole hsep hlo hhi =>
      have hlaid := hlaid.of_below hseries
      have hlt := (hparted.members _ hseries (isSeparated_of_member hlaid ht hsep) _ ht hhole).1
      exact avoids_member hlaid hends ht hhole hlt hsep hs (hapart _ (.part hseries ht)) hlo hhi

/-- An edit made in an element takes out nothing outside of it. -/
theorem Reaches.within (h : e.Reaches d edit) (hlaid : d.Laid e.text comments)
    (hparted : d.Parted e.text comments) (hends : ∀ k ∈ comments, k.EndsLine e.text)
    (hvisited : isVisited d = true) {pos : Nat} (hpos : edit.Covers pos) :
  d.span.Has pos
  := by
  obtain ⟨hedged, hencloses, hend⟩ := hparted.edged .root hvisited
  cases h with
  | inside ht hin => exact hencloses _ ht pos (hin pos hpos)
  | @behind rule items t sep hseries ht hhole hsep hlo hhi =>
      have hlaid := hlaid.of_below hseries
      have hseparated := isSeparated_of_member hlaid ht hsep
      have hlt := (hparted.members _ hseries hseparated _ ht hhole).1
      obtain ⟨hlo', -⟩ := hencloses t (.part hseries ht) t.span.lo ⟨Nat.le_refl _, hlt⟩
      have hlt' := hend _ hseries hseparated t ht hhole
      have hsep' := separator_lt hlaid hends ht hhole hsep hedged.last rfl
        (greater_not_mem_separators rule) (fun k hk => (hedged.free k hk).2) (by omega)
      obtain ⟨hpos, hpos'⟩ := hpos
      exact ⟨by omega, by omega⟩

/-! ### Elements among what is deleted -/

/-- Whether of some edits only those made for an element, or inside of it, take out something of it. -/
def Isolates (e : Elision) (edits : List Edit) (v : String × Tree) : Prop :=
  ∃ front back, edits = front ++ (e.visit v.1 v.2).edits ++ back ∧
    ∀ edit ∈ front ++ back, edit.Avoids v.2.span

/-- What is known of the edits that a walk through some trees makes, and of the elements it comes to
first: the elements stand apart, and the edits take out nothing of one but those made for it. -/
structure Cell (e : Elision) (comments : List Comment) (scope : Tree → Prop) (edits : List Edit)
    (vs : List (String × Tree)) : Prop where
  isolates : ∀ v ∈ vs, e.Isolates edits v
  elements : ∀ v ∈ vs, scope v.2 ∧ isVisited v.2 = true ∧ v.2.span.Edged e.text comments
  apart : vs.Pairwise fun v w => v.2.span.Apart w.2.span
  /-- Nothing is taken out of what stands apart from the trees. -/
  foreign : ∀ edit ∈ edits, ∀ s : Span, s.Edged e.text comments →
    (∀ u, scope u → u.span.Apart s) → edit.Avoids s
  inked : ∀ edit ∈ edits, edit.Inked e.text

variable {scope scope' : Tree → Prop} {edits edits' : List Edit} {vs vs' : List (String × Tree)}
  {v : String × Tree} {r : String} {ts : List Tree}

theorem Isolates.append_left (h : e.Isolates edits v)
    (hedits : ∀ edit ∈ edits', edit.Avoids v.2.span) :
  e.Isolates (edits' ++ edits) v
  := by
  obtain ⟨front, back, rfl, havoids⟩ := h
  refine ⟨edits' ++ front, back, by simp, fun edit hedit => ?_⟩
  rw [List.append_assoc] at hedit
  obtain hedit | hedit := List.mem_append.mp hedit
  · exact hedits edit hedit
  · exact havoids edit hedit

theorem Isolates.append_right (h : e.Isolates edits v)
    (hedits : ∀ edit ∈ edits', edit.Avoids v.2.span) :
  e.Isolates (edits ++ edits') v
  := by
  obtain ⟨front, back, rfl, havoids⟩ := h
  refine ⟨front, back ++ edits', by simp, fun edit hedit => ?_⟩
  rw [← List.append_assoc] at hedit
  obtain hedit | hedit := List.mem_append.mp hedit
  · exact havoids edit hedit
  · exact hedits edit hedit

theorem Cell.nil :
  e.Cell comments scope [] []
  := ⟨by simp, by simp, .nil, by simp, by simp⟩

theorem Cell.mono (h : e.Cell comments scope edits vs) (hscope : ∀ u, scope u → scope' u) :
  e.Cell comments scope' edits vs
  where
  isolates := h.isolates
  elements v hv := ⟨hscope _ (h.elements v hv).1, (h.elements v hv).2⟩
  apart := h.apart
  foreign edit hedit s hs hapart := h.foreign edit hedit s hs fun u hu => hapart u (hscope u hu)
  inked := h.inked

theorem Cell.append (h : e.Cell comments scope edits vs) (h' : e.Cell comments scope edits' vs')
    (hright : ∀ edit ∈ edits, ∀ v ∈ vs', edit.Avoids v.2.span)
    (hleft : ∀ edit ∈ edits', ∀ v ∈ vs, edit.Avoids v.2.span)
    (hapart : ∀ v ∈ vs, ∀ w ∈ vs', v.2.span.Apart w.2.span) :
  e.Cell comments scope (edits ++ edits') (vs ++ vs')
  where
  isolates v hv := by
    obtain hv | hv := List.mem_append.mp hv
    · exact (h.isolates v hv).append_right fun edit hedit => hleft edit hedit v hv
    · exact (h'.isolates v hv).append_left fun edit hedit => hright edit hedit v hv
  elements v hv := (List.mem_append.mp hv).elim (h.elements v) (h'.elements v)
  apart := List.pairwise_append.mpr ⟨h.apart, h'.apart, hapart⟩
  foreign edit hedit := (List.mem_append.mp hedit).elim (h.foreign edit) (h'.foreign edit)
  inked edit hedit := (List.mem_append.mp hedit).elim (h.inked edit) (h'.inked edit)

/-- Edits that put nothing in the place of what they take out, where there is no element. -/
theorem Cell.deletions
    (hforeign : ∀ edit ∈ edits, ∀ s : Span, s.Edged e.text comments →
      (∀ u, scope u → u.span.Apart s) → edit.Avoids s)
    (hedits : ∀ edit ∈ edits, edit.replacement = "") :
  e.Cell comments scope edits []
  := ⟨by simp, by simp, .nil, hforeign, fun edit hedit hr => absurd (hedits edit hedit) hr⟩

/-- A tree that goes. -/
theorem Cell.gone (hinked : (⟨t.span.lo, t.span.hi, r⟩ : Edit).Inked e.text) :
  e.Cell comments t.Below (gone t.span r).edits []
  := by
  refine ⟨by simp, by simp, .nil, ?_, ?_⟩
  · intro edit hedit s _ hapart
    obtain rfl := List.mem_singleton.mp hedit
    exact fun pos hpos hcovers => hapart t .root pos hcovers hpos
  · intro edit hedit
    obtain rfl := List.mem_singleton.mp hedit
    exact hinked

theorem inked_deletion (text : List Char) (lo hi : Nat) :
  (⟨lo, hi, ""⟩ : Edit).Inked text
  := fun h => absurd rfl h

/-- The members of a series, one after the other. -/
theorem Cell.flatMap {F : Tree → List Edit} {N : Tree → List (String × Tree)}
    (hclear : ts.Pairwise Source.Tree.Clear)
    (hcells : ∀ t ∈ ts, e.Cell comments t.Below (F t) (N t)) :
  e.Cell comments (fun u => ∃ t ∈ ts, t.Below u) (ts.flatMap F) (ts.flatMap N)
  := by
  induction ts with
  | nil => exact .nil
  | cons t ts ih =>
      obtain ⟨hclear_t, hclear⟩ := List.pairwise_cons.mp hclear
      obtain ⟨hcell, hcells⟩ := List.forall_mem_cons.mp hcells
      have hrest := ih hclear hcells
      rw [List.flatMap_cons, List.flatMap_cons]
      refine (hcell.mono fun u hu => ⟨t, List.mem_cons_self, hu⟩).append
        (hrest.mono fun u hu => by
          obtain ⟨s, hs, hu⟩ := hu
          exact ⟨s, List.mem_cons_of_mem _ hs, hu⟩) ?_ ?_ ?_
      · intro edit hedit v hv
        obtain ⟨⟨s, hs, hbelow⟩, -, hedged⟩ := hrest.elements v hv
        exact hcell.foreign edit hedit _ hedged fun u hu => hclear_t s hs u hu v.2 hbelow
      · intro edit hedit v hv
        obtain ⟨hbelow, -, hedged⟩ := hcell.elements v hv
        refine hrest.foreign edit hedit _ hedged fun u ⟨s, hs, hu⟩ => ?_
        exact (hclear_t s hs).symm u hu v.2 hbelow
      · intro v hv w hw
        obtain ⟨⟨s, hs, hbelow⟩, -⟩ := hrest.elements w hw
        exact hclear_t s hs v.2 (hcell.elements v hv).1 w.2 hbelow

/-- What a walk through a tree makes, if of the elements it comes to first only the edits made for
them take out something. -/
theorem Cell.visit (hr : r ∈ replacements) (hlaid : t.Laid e.text comments)
    (hparted : t.Parted e.text comments) (hends : ∀ k ∈ comments, k.EndsLine e.text)
    (hisolates : ∀ v ∈ e.nested r t, e.Isolates (e.visit r t).edits v)
    (hapart : (e.nested r t).Pairwise fun v w => v.2.span.Apart w.2.span)
    (hinked : ∀ edit ∈ (e.visit r t).edits, edit.Inked e.text) :
  e.Cell comments t.Below (e.visit r t).edits (e.nested r t)
  where
  isolates := hisolates
  elements v hv := by
    obtain ⟨hbelow, hvisited, -⟩ := of_mem_nested hv hr
    exact ⟨hbelow, hvisited, (hparted.edged hbelow hvisited).1⟩
  apart := hapart
  foreign edit hedit s hs hapart :=
    ((reasoned_visit r t .root hr edit hedit).reaches hlaid).avoids hlaid hparted hends hs hapart
  inked := hinked

/-! ### Series -/

theorem edits_visitAll (ts : List Tree) :
  (e.visitAll ts).edits = ts.flatMap fun t => (e.visit "null" t).edits
  := by
  induction ts with
  | nil => rfl
  | cons t ts ih => rw [visitAll, edits_append, ih, List.flatMap_cons]

theorem nestedAll_eq (ts : List Tree) :
  e.nestedAll ts = ts.flatMap (e.nested "null")
  := by
  induction ts with
  | nil => rfl
  | cons t ts ih => rw [nestedAll, ih, List.flatMap_cons]

theorem edits_visitBlock (items : List Tree) :
  (e.visitBlock items).edits = items.flatMap fun t =>
    (if e.excluded t.span then gone t.span "" else e.visit "null" t).edits
  := by
  induction items with
  | nil => rfl
  | cons t items ih => rw [visitBlock, edits_append, ih, List.flatMap_cons]

theorem edits_visitLone (items : List Tree) :
  (e.visitLone items).edits = items.flatMap fun t =>
    (if e.excluded t.span then gone t.span "\x7b\x7d" else e.visit "null" t).edits
  := by
  induction items with
  | nil => rfl
  | cons t items ih => rw [visitLone, edits_append, ih, List.flatMap_cons]

theorem nestedItems_eq (passes : Tree → Bool) (items : List Tree) :
  e.nestedItems passes items = items.flatMap fun t => if passes t then [] else e.nested "null" t
  := by
  induction items with
  | nil => rfl
  | cons t items ih => rw [nestedItems, ih, List.flatMap_cons]

/-- What a walk makes of a child of an element. -/
def visitChild (e : Elision) (t : Tree) : Found :=
  if e.excluded t.span then gone t.span ""
  else if isEmptyContainer t && e.holdsDirectives t.span then
    { edits := [⟨t.span.lo, t.span.hi, ""⟩] }
  else e.visit "" t

/-- The elements that a walk comes to first in a child of an element. -/
def nestedChild (e : Elision) (t : Tree) : List (String × Tree) :=
  if e.excluded t.span then if isVisited t then [("", t)] else []
  else if isEmptyContainer t && e.holdsDirectives t.span then []
  else e.nested "" t

theorem edits_visitChildren (items : List Tree) :
  (e.visitChildren items).edits = items.flatMap fun t => (e.visitChild t).edits
  := by
  induction items with
  | nil => rfl
  | cons t items ih =>
      rw [visitChildren, edits_append, ih, List.flatMap_cons]
      rfl

theorem nestedChildren_eq (items : List Tree) :
  e.nestedChildren items = items.flatMap e.nestedChild
  := by
  induction items with
  | nil => rfl
  | cons t items ih =>
      rw [nestedChildren, ih, List.flatMap_cons]
      rfl

/-- What is deleted of a member of a separated series, with the separator behind it if there is one. -/
def visitMember (e : Elision) (separators : List Char) (t : Tree) : Found :=
  if isHole t then .none
  else if e.excluded t.span then e.goneWithSeparator separators t.span
  else e.visit "null" t

/-- What is deleted of a separated series belongs to a member, or is the separator behind the last
one that stays. -/
theorem mem_visitSeparated {separators : List Char} {tidy : Bool} {kept : Option Span}
    (h : edit ∈ (e.visitSeparated separators tidy kept items).edits) :
  (∃ t ∈ items, edit ∈ (e.visitMember separators t).edits) ∨
    tidy = true ∧ edit ∈ (e.looseSeparator separators kept).edits
  := by
  induction items with
  | nil => simp [visitSeparated, Found.none] at h
  | cons t items ih =>
      rw [visitSeparated, edits_append, List.mem_append] at h
      obtain h | h := h
      · by_cases hhole : isHole t = true
        · simp [hhole, Found.none] at h
        · by_cases hgoes : e.excluded t.span = true
          · simp only [hhole, hgoes, Bool.false_eq_true, if_false, if_true, edits_append,
              List.mem_append] at h
            obtain h | h := h
            · exact .inl ⟨t, List.mem_cons_self, by simpa [visitMember, hhole, hgoes] using h⟩
            · split at h
              · next htidy =>
                rw [Bool.and_eq_true] at htidy
                exact .inr ⟨htidy.1, h⟩
              · simp [Found.none] at h
          · exact .inl ⟨t, List.mem_cons_self, by simpa [visitMember, hhole, hgoes] using h⟩
      · obtain ⟨t', ht', h⟩ | h := ih h
        · exact .inl ⟨t', List.mem_cons_of_mem _ ht', h⟩
        · exact .inr h

/-- A member of a separated series with the elements in it. -/
theorem Cell.member (hlaid : (Source.Tree.series rule items).Laid e.text comments)
    (hends : ∀ k ∈ comments, k.EndsLine e.text) (ht : t ∈ items)
    (hlt : isHole t = false → t.span.lo < t.span.hi)
    (hcell : e.Cell comments t.Below (e.visit "null" t).edits (e.nested "null" t)) :
  e.Cell comments t.Below (e.visitMember rule.separators t).edits
    (if e.goesOrHole t then [] else e.nested "null" t)
  := by
  rw [visitMember, goesOrHole]
  by_cases hhole : isHole t = true
  · rw [if_pos hhole, if_pos (by simp [hhole])]
    exact .nil
  · by_cases hgoes : e.excluded t.span = true
    · rw [if_neg hhole, if_pos hgoes, if_pos (by simp [hgoes]), goneWithSeparator]
      split
      · next sep hsep =>
        refine .deletions (fun edit hedit s hs hapart => ?_) (by simp [Elision.gone])
        obtain rfl := List.mem_singleton.mp hedit
        have hhole : isHole t = false := by simpa using hhole
        exact avoids_member hlaid hends ht hhole (hlt hhole) hsep hs (hapart t .root)
          (Nat.le_refl _) rfl
      · exact .gone (inked_deletion _ _ _)
    · rw [if_neg hhole, if_neg hgoes, if_neg (by simp [hhole, hgoes])]
      exact hcell

/-- What is deleted of a separated series is what is deleted of the first member, the separator behind
the last one that stays in some cases, and what is deleted of the others. -/
theorem exists_edits_visitSeparated (e : Elision) (separators : List Char) (tidy : Bool)
    (kept : Option Span) (t : Tree) (items : List Tree) :
  ∃ loose, (e.visitSeparated separators tidy kept (t :: items)).edits
      = ((e.visitMember separators t).edits ++ loose)
        ++ (e.visitSeparated separators tidy kept items).edits ∧
    (loose = [] ∨ tidy = true ∧ loose = (e.looseSeparator separators kept).edits)
  := by
  rw [visitSeparated, visitMember]
  by_cases hhole : isHole t = true
  · exact ⟨[], by simp [hhole, Found.none], .inl rfl⟩
  · by_cases hgoes : e.excluded t.span = true
    · by_cases htidy : (tidy && items.all e.goesOrHole) = true
      · refine ⟨_, ?_, .inr ⟨(Bool.and_eq_true _ _ ▸ htidy).1, rfl⟩⟩
        rw [if_neg hhole, if_pos hgoes, if_pos htidy, if_neg hhole, if_pos hgoes, edits_append,
          edits_append]
      · refine ⟨[], ?_, .inl rfl⟩
        rw [if_neg hhole, if_pos hgoes, if_neg htidy, if_neg hhole, if_pos hgoes, edits_append,
          edits_append]
        rfl
    · exact ⟨[], by simp [hhole, hgoes], .inl rfl⟩

/-- A separated series: the separator behind the last member that stays leaves alone what stands in
the members. -/
theorem Cell.separated {separators : List Char} {tidy : Bool} {kept : Option Span}
    (hclear : items.Pairwise Source.Tree.Clear)
    (hcells : ∀ t ∈ items, e.Cell comments t.Below (e.visitMember separators t).edits
      (if e.goesOrHole t then [] else e.nested "null" t))
    (hscope : ∀ t ∈ items, ∀ u, t.Below u → scope u)
    (hloose : tidy = true → e.Cell comments scope (e.looseSeparator separators kept).edits [])
    (havoids : tidy = true → ∀ edit ∈ (e.looseSeparator separators kept).edits,
      ∀ t ∈ items, ∀ v ∈ (if e.goesOrHole t then [] else e.nested "null" t),
        edit.Avoids v.2.span) :
  e.Cell comments scope (e.visitSeparated separators tidy kept items).edits
    (e.nestedItems e.goesOrHole items)
  := by
  induction items with
  | nil => exact .nil
  | cons t items ih =>
      obtain ⟨hclear_t, hclear⟩ := List.pairwise_cons.mp hclear
      obtain ⟨hcell, hcells⟩ := List.forall_mem_cons.mp hcells
      obtain ⟨hscope_t, hscope⟩ := List.forall_mem_cons.mp hscope
      have hrest := ih hclear hcells hscope fun htidy edit hedit s hs =>
        havoids htidy edit hedit s (List.mem_cons_of_mem _ hs)
      obtain ⟨loose, hedits, hloose_eq⟩ :=
        exists_edits_visitSeparated e separators tidy kept t items
      have havoids_loose : ∀ edit ∈ loose, ∀ s ∈ t :: items,
          ∀ v ∈ (if e.goesOrHole s then [] else e.nested "null" s), edit.Avoids v.2.span := by
        obtain rfl | ⟨htidy, rfl⟩ := hloose_eq
        · simp
        · exact havoids htidy
      have hfirst : e.Cell comments scope ((e.visitMember separators t).edits ++ loose)
          (if e.goesOrHole t then [] else e.nested "null" t) := by
        have hcell_loose : e.Cell comments scope loose [] := by
          obtain rfl | ⟨htidy, rfl⟩ := hloose_eq
          · exact .nil
          · exact hloose htidy
        have happend := (hcell.mono hscope_t).append hcell_loose (by simp)
          (fun edit hedit => havoids_loose edit hedit t List.mem_cons_self) (by simp)
        rwa [List.append_nil] at happend
      have hmem {v : String × Tree} (hv : v ∈ e.nestedItems e.goesOrHole items) :
          ∃ s ∈ items, v ∈ (if e.goesOrHole s then [] else e.nested "null" s) := by
        rw [nestedItems_eq] at hv
        exact List.mem_flatMap.mp hv
      rw [hedits, nestedItems]
      refine hfirst.append hrest ?_ ?_ ?_
      · intro edit hedit v hv
        obtain ⟨s, hs, hv⟩ := hmem hv
        obtain hedit | hedit := List.mem_append.mp hedit
        · obtain ⟨hbelow, -, hedged⟩ := (hcells s hs).elements v hv
          exact hcell.foreign edit hedit _ hedged fun u hu => hclear_t s hs u hu v.2 hbelow
        · exact havoids_loose edit hedit s (List.mem_cons_of_mem _ hs) v hv
      · intro edit hedit v hv
        obtain ⟨s, hs, hedit⟩ | ⟨htidy, hedit⟩ := mem_visitSeparated hedit
        · obtain ⟨hbelow, -, hedged⟩ := hcell.elements v hv
          exact (hcells s hs).foreign edit hedit _ hedged fun u hu =>
            (hclear_t s hs).symm u hu v.2 hbelow
        · exact havoids htidy edit hedit t List.mem_cons_self v hv
      · intro v hv w hw
        obtain ⟨s, hs, hw⟩ := hmem hw
        exact hclear_t s hs v.2 (hcell.elements v hv).1 w.2 ((hcells s hs).elements w hw).1

/-- The separator behind the last member that stays stands behind the member. -/
theorem exists_of_mem_looseSeparator {kept : Option Span}
    (h : edit ∈ (e.looseSeparator rule.separators kept).edits) :
  ∃ s sep, kept = some s ∧ e.separatorAfter? rule.separators s.hi = some sep ∧
    edit = ⟨sep, sep + 1, ""⟩
  := by
  rw [looseSeparator] at h
  split at h
  · next sep hsep =>
    obtain ⟨s, hkept, hsep⟩ := Option.bind_eq_some_iff.mp hsep
    exact ⟨s, sep, hkept, hsep, List.mem_singleton.mp h⟩
  · simp [Found.none] at h

theorem exists_of_lastKept? (h : e.lastKept? items = some s) :
  ∃ t ∈ items, isHole t = false ∧ t.span = s
  := by
  obtain ⟨t, hlast, rfl⟩ := Option.map_eq_some_iff.mp h
  obtain ⟨hmem, hstays⟩ := List.mem_filter.mp (List.mem_of_getLast? hlast)
  refine ⟨t, hmem, ?_, rfl⟩
  rw [Bool.not_eq_true', goesOrHole, Bool.or_eq_false_iff] at hstays
  exact hstays.1

/-- A separated series in which the separator behind the last member that stays may go. -/
theorem Cell.list {tidy : Bool} {kept : Option Span}
    (hlaid : (Source.Tree.series rule items).Laid e.text comments)
    (hparted : (Source.Tree.series rule items).Parted e.text comments)
    (hends : ∀ k ∈ comments, k.EndsLine e.text) (hrule : rule.isSeparated = true)
    (hkept : tidy = true → kept = e.lastKept? items)
    (hcells : ∀ t ∈ items,
      e.Cell comments t.Below (e.visit "null" t).edits (e.nested "null" t)) :
  e.Cell comments (Source.Tree.series rule items).Below
    (e.visitSeparated rule.separators tidy kept items).edits
    (e.nestedItems e.goesOrHole items)
  := by
  have hclear := hparted.clear _ .root
  have hmembers := hparted.members _ .root hrule
  have hcells' (t : Tree) (ht : t ∈ items) := Cell.member hlaid hends ht
    (fun hhole => (hmembers t ht hhole).1) (hcells t ht)
  have hplaced : ∀ t ∈ items, t.Placed e.text := by
    cases hlaid with
    | series _ hplaced _ => exact hplaced
  have hloose (htidy : tidy = true) {edit : Edit}
      (hedit : edit ∈ (e.looseSeparator rule.separators kept).edits) :
      ∃ k ∈ items, isHole k = false ∧ ∃ sep, e.separatorAfter? rule.separators k.span.hi = some sep ∧
        k.span.lo ≤ sep ∧ k.span.hi ≤ sep ∧ edit = ⟨sep, sep + 1, ""⟩ := by
    obtain ⟨_, sep, hlast, hsep, rfl⟩ := exists_of_mem_looseSeparator hedit
    obtain ⟨k, hk, hhole, rfl⟩ := exists_of_lastKept? ((hkept htidy).symm.trans hlast)
    obtain ⟨-, hle, -, hhi⟩ := hplaced k hk
    obtain ⟨hle', -⟩ := boundary_separator hhi hsep
    exact ⟨k, hk, hhole, sep, hsep, Nat.le_trans hle hle', hle', rfl⟩
  refine .separated hclear hcells' (fun t ht u hu => .of_part ht hu) (fun htidy => ?_)
    fun htidy => ?_
  · refine .deletions (fun edit hedit s hs hapart => ?_) fun edit hedit => ?_
    · obtain ⟨k, hk, hhole, sep, hsep, hle, -, rfl⟩ := hloose htidy hedit
      exact avoids_member hlaid hends hk hhole (hmembers k hk hhole).1 hsep hs
        (hapart k (.part .root hk)) hle rfl
    · obtain ⟨k, -, -, sep, -, -, -, rfl⟩ := hloose htidy hedit
      rfl
  · intro edit hedit t ht v hv
    obtain ⟨k, hk, hhole, sep, hsep, hle, hle', rfl⟩ := hloose htidy hedit
    obtain ⟨hbelow, -, hedged⟩ := (hcells' t ht).elements v hv
    by_cases heq : k = t
    · -- the separator stands behind the member that the element lies in
      subst heq
      intro pos hpos hcovers
      have hin := (hmembers k hk hhole).2 v.2 hbelow pos hpos
      have := hcovers.1
      have := hin.2
      simp only at *
      omega
    · have hsymm : Std.Symm Source.Tree.Clear := ⟨fun _ _ h => h.symm⟩
      have hapart := hclear.forall hk ht heq k .root v.2 hbelow
      exact avoids_member hlaid hends hk hhole (hmembers k hk hhole).1 hsep hedged hapart hle rfl

/-- The members of a series that is not separated. -/
theorem Cell.members {F : Tree → List Edit} {N : Tree → List (String × Tree)}
    (hparted : (Source.Tree.series rule items).Parted e.text comments)
    (hcells : ∀ t ∈ items, e.Cell comments t.Below (F t) (N t)) :
  e.Cell comments (Source.Tree.series rule items).Below (items.flatMap F) (items.flatMap N)
  := (Cell.flatMap (hparted.clear _ .root) hcells).mono fun _ ⟨_, ht, hu⟩ => .of_part ht hu

theorem Cell.node {kind : Kind} {span : Span} {parts : List Tree}
    (hparted : (Source.Tree.node kind span parts).Parted e.text comments)
    (hcells : ∀ t ∈ parts, e.Cell comments t.Below (e.visit "null" t).edits (e.nested "null" t)) :
  e.Cell comments (Source.Tree.node kind span parts).Below (e.visitAll parts).edits
    (e.nestedAll parts)
  := by
  rw [edits_visitAll, nestedAll_eq]
  exact (Cell.flatMap (hparted.clear _ .root) hcells).mono fun _ ⟨_, ht, hu⟩ => .of_part ht hu

/-- An element that a walk comes to, if it is known of all smaller trees below what a walk makes of
them. -/
theorem Cell.element (ht : isVisited t = true) (hr : r ∈ replacements)
    (hlaid : t.Laid e.text comments) (hparted : t.Parted e.text comments)
    (hends : ∀ k ∈ comments, k.EndsLine e.text)
    (ih : ∀ p, sizeOf p < sizeOf t → t.Below p → ∀ r ∈ replacements,
      e.Cell comments p.Below (e.visit r p).edits (e.nested r p)) :
  e.Cell comments t.Below (e.visit r t).edits (e.nested r t)
  := by
  refine .visit hr hlaid hparted hends ?_ ?_ fun edit hedit => ?_
  · rw [nested_of_isVisited ht]
    exact List.forall_mem_singleton.mpr ⟨[], [], by simp, by simp⟩
  · rw [nested_of_isVisited ht]
    exact List.pairwise_singleton _ _
  cases hfate : e.fate t with
  | goes =>
      rw [visit_of_goes ht hfate] at hedit
      obtain rfl := List.mem_singleton.mp hedit
      exact (hparted.edged .root ht).1.inked r
  | collapses child =>
      have hmem : (r, child) ∈ e.next r t := by simp [next, hfate]
      obtain ⟨p, hp, hbelow⟩ := exists_part_of_mem_next hmem
      rw [visit_of_collapses ht hfate, edits_append] at hedit
      obtain hedit | hedit := List.mem_append.mp hedit
      · simp only [splice, List.mem_cons, List.not_mem_nil, or_false] at hedit
        obtain rfl | rfl := hedit
        · exact inked_deletion _ _ _
        · exact inked_deletion _ _ _
      · exact (ih child (sizeOf_lt_of_mem_next hmem) (.of_part hp hbelow) r hr).inked edit hedit
  | stays =>
      rw [visit_of_stays ht hfate, edits_visitAll] at hedit
      obtain ⟨p, hp, hedit⟩ := List.mem_flatMap.mp hedit
      exact (ih p (Source.Tree.sizeOf_lt_of_mem_parts hp) (.part .root hp) "null"
        null_mem_replacements).inked edit hedit

/-- A child of an element. -/
theorem Cell.child
    (hcell : e.Cell comments t.Below (e.visit "" t).edits (e.nested "" t)) :
  e.Cell comments t.Below (e.visitChild t).edits (e.nestedChild t)
  := by
  rw [visitChild, nestedChild]
  split
  · next hgoes =>
    split
    · next hvisited =>
      -- an element that goes leaves nothing in its place here, as it would if it were walked to
      have hfate : e.fate t = .goes := by rw [fate, if_pos hgoes]
      rw [← visit_of_goes (r := "") hvisited hfate, ← nested_of_isVisited (e := e) hvisited]
      exact hcell
    · exact .gone (inked_deletion _ _ _)
  · split
    · exact .gone (inked_deletion _ _ _)
    · exact hcell

/-- Of all edits that a walk makes only those made for an element that it comes to first take out
something of it. -/
theorem cell_visit (hr : r ∈ replacements) (hlaid : t.Laid e.text comments)
    (hparted : t.Parted e.text comments) (hends : ∀ k ∈ comments, k.EndsLine e.text) :
  e.Cell comments t.Below (e.visit r t).edits (e.nested r t)
  := by
  induction t using Source.Tree.induction generalizing r with
  | h t ih =>
      have hbelow (p : Tree) (hlt : sizeOf p < sizeOf t) (hp : t.Below p) (r : String)
          (hr : r ∈ replacements) : e.Cell comments p.Below (e.visit r p).edits (e.nested r p) :=
        ih p hlt hr (hlaid.of_below hp) (hparted.of_below hp)
      have hparts (p : Tree) (hp : p ∈ t.parts) (r : String) (hr : r ∈ replacements) :
          e.Cell comments p.Below (e.visit r p).edits (e.nested r p) :=
        hbelow p (Source.Tree.sizeOf_lt_of_mem_parts hp) (.part .root hp) r hr
      have hnull (p : Tree) (hp : p ∈ t.parts) := hparts p hp "null" null_mem_replacements
      cases hvisited : isVisited t with
      | true => exact .element hvisited hr hlaid hparted hends hbelow
      | false =>
          cases t with
          | node kind span parts =>
              obtain ⟨hvisit, hnested⟩ | ⟨rfl, -, hvisit, hnested⟩ :=
                visit_node_of_not_isVisited (e := e) hvisited r
              · rw [hvisit, hnested]
                exact .node hparted hnull
              · rw [hvisit, hnested]
                have hedged := (hparted.frames _ .root rfl).1
                exact .gone (t := .node (.fragment .expression) span parts) (hedged.inked r)
          | series rule items =>
              cases rule with
              | block =>
                  simp only [visit, nested, edits_visitBlock, nestedItems_eq]
                  refine .members hparted fun p hp => ?_
                  split
                  · exact .gone (inked_deletion _ _ _)
                  · exact hnull p hp
              | lone =>
                  simp only [visit, nested, edits_visitLone, nestedItems_eq]
                  refine .members hparted fun p hp => ?_
                  split
                  · exact .gone fun _ => hparted.lone _ .root rfl p hp
                  · exact hnull p hp
              | list =>
                  simp only [visit, nested]
                  exact .list hlaid hparted hends rfl (fun _ => rfl) hnull
              | members =>
                  simp only [visit, nested]
                  exact .list hlaid hparted hends rfl (by simp) hnull
              | declarators =>
                  simp only [visit, nested]
                  split
                  · exact .nil
                  · exact .list hlaid hparted hends rfl (fun _ => rfl) hnull
              | children =>
                  simp only [visit, nested, edits_visitChildren, nestedChildren_eq]
                  exact .members hparted fun p hp =>
                    .child (hparts p hp "" nothing_mem_replacements)

end Elision

end Prune
