import Mathlib.Data.List.Basic
import Prune.Proofs.Source.Lexing
import Prune.Source.Grammar.Targets

/-!
# Layout of syntax trees

How the spans of a syntax tree lie in the text (`Tree.Laid`): the parts of a node lie inside of it,
members of series start and end between characters, and the members of a separated series end where
the comments up to the next token are known.  The decorators of an exported class may stand in front
of it; nothing else lies outside of the node it belongs to.

A tree is laid out relative to how far the text was read (`Extent`): `Fits` is what is known of a
tree that a rule of the grammar gives, and `Holds` what a part of a node needs.
-/

namespace Prune.Source

open Text

/-- How far a text was read: where the token read last ends, and the comments that were met. -/
structure Extent where
  stop : Nat
  comments : List Comment

/-- Reading goes on from the first to the second. -/
instance : LE Extent := ⟨fun a b => a.stop ≤ b.stop ∧ a.comments ⊆ b.comments⟩

namespace Extent

theorem le_refl (a : Extent) :
  a ≤ a
  := ⟨Nat.le_refl _, List.Subset.refl _⟩

theorem le_trans {a b c : Extent} (hab : a ≤ b) (hbc : b ≤ c) :
  a ≤ c
  := ⟨Nat.le_trans hab.1 hbc.1, List.Subset.trans hab.2 hbc.2⟩

end Extent

/-- Whether the comments of the gap at an offset are known. No gap is looked for in front of a less
sign, behind which a tag may start. -/
def Settled (text : List Char) (comments : List Comment) (pos : Nat) : Prop :=
  ∀ rest, Stands text rest pos → rest.head? ≠ some '<' →
    ∃ newline, (Gap.read newline pos rest).comments ⊆ comments

theorem Settled.mono {text : List Char} {comments comments' : List Comment} {pos : Nat}
    (h : Settled text comments pos) (hsubset : comments ⊆ comments') :
  Settled text comments' pos
  := by
  intro rest hrest hhead
  obtain ⟨newline, hcomments⟩ := h rest hrest hhead
  exact ⟨newline, List.Subset.trans hcomments hsubset⟩

/-- Whether the members of a series have separators between them. -/
def Rule.isSeparated : Rule → Bool
  | .list | .declarators | .members => true
  | .block | .lone | .children => false

/-- Whether a node is an element or a fragment of markup. -/
def Kind.isFrame : Kind → Bool
  | .element _ | .fragment _ => true
  | _ => false

namespace Tree

/-- Whether a tree is a decorator. -/
def isDecorator (t : Tree) : Bool :=
  t.kind? == some (.declaration .decorator)

/-- Whether a tree is a decorator that stands in front of the class it belongs to, given the kind
and the span of the latter. -/
def Stray (kind : Kind) (span : Span) (t : Tree) : Prop :=
  kind = .declaration .classDecl ∧ t.isDecorator = true ∧ t.span.lo < span.lo

/-- Whether a node, or all members of a series, lie between two offsets. What takes no bytes lies
everywhere. -/
inductive Bounded (lo hi : Nat) : Tree → Prop where
  | node {kind : Kind} {span : Span} {parts : List Tree} (hle : span.lo ≤ span.hi)
      (hin : span.lo < span.hi → lo ≤ span.lo ∧ span.hi ≤ hi) : Bounded lo hi (.node kind span parts)
  | series {rule : Rule} {items : List Tree} (hitems : ∀ t ∈ items, Bounded lo hi t) :
      Bounded lo hi (.series rule items)

/-- Whether a tree is a node that starts and ends between characters. -/
structure Placed (text : List Char) (t : Tree) : Prop where
  isNode : t.kind?.isSome = true
  le : t.span.lo ≤ t.span.hi
  lo : Boundary text t.span.lo
  hi : Boundary text t.span.hi

/-- Whether trees follow each other. -/
def Ordered (ts : List Tree) : Prop :=
  ts.Pairwise fun a b => a.span.hi ≤ b.span.lo

/-- Whether the spans of a tree are laid out in a text as its parts stand, where `comments` are
known. -/
inductive Laid (text : List Char) (comments : List Comment) : Tree → Prop where
  | node {kind : Kind} {span : Span} {parts : List Tree}
      (hparts : ∀ p ∈ parts, Laid text comments p)
      (hbounded : ∀ p ∈ parts, p.Bounded span.lo span.hi ∨ p.Stray kind span)
      (hframe : kind.isFrame = true → span.lo < span.hi ∧ Placed text (.node kind span parts) ∧
        Ordered (parts.flatMap Grammar.flatten)) :
      Laid text comments (.node kind span parts)
  | series {rule : Rule} {items : List Tree}
      (hitems : ∀ t ∈ items, Laid text comments t)
      (hplaced : ∀ t ∈ items, Placed text t)
      (hsettled : rule.isSeparated = true →
        ∀ t ∈ items, t.kind? = some .hole ∨ Settled text comments t.span.hi) :
      Laid text comments (.series rule items)

theorem Bounded.mono {lo hi lo' hi' : Nat} {t : Tree} (h : t.Bounded lo hi) (hlo : lo' ≤ lo)
    (hhi : hi ≤ hi') :
  t.Bounded lo' hi'
  := by
  induction h with
  | node hle hin =>
      refine .node hle fun hlt => ?_
      have := hin hlt
      omega
  | series hitems ih => exact .series ih

/-- What lies between an offset and one not behind it takes no bytes, and lies everywhere. -/
theorem Bounded.of_le {lo hi lo' hi' : Nat} {t : Tree} (h : t.Bounded lo hi) (hle : hi ≤ lo) :
  t.Bounded lo' hi'
  := by
  induction h with
  | node hle' hin =>
      refine .node hle' fun hlt => ?_
      have := hin hlt
      omega
  | series _ ih => exact .series ih

/-- A node lies where its span lies. -/
theorem Placed.bounded {text : List Char} {lo hi : Nat} {t : Tree} (h : t.Placed text)
    (hlo : lo ≤ t.span.lo) (hhi : t.span.hi ≤ hi) :
  t.Bounded lo hi
  := by
  obtain ⟨hnode, hle, -⟩ := h
  cases t with
  | node kind span parts => exact .node hle fun _ => ⟨hlo, hhi⟩
  | series => simp [Tree.kind?] at hnode

theorem Laid.of_mem_parts {text : List Char} {comments : List Comment} {s t : Tree}
    (h : t.Laid text comments) (hs : s ∈ t.parts) :
  s.Laid text comments
  := by
  cases h with
  | node hparts _ _ => exact hparts s hs
  | series hitems _ _ => exact hitems s hs

/-- Nothing but the decorators of a class lies outside of the node it belongs to. -/
theorem Laid.bounded_part {text : List Char} {comments : List Comment} {kind : Kind} {span : Span}
    {parts : List Tree} {p : Tree} (h : (Tree.node kind span parts).Laid text comments)
    (hp : p ∈ parts) (hkind : kind ≠ .declaration .classDecl) :
  p.Bounded span.lo span.hi
  := by
  cases h with
  | node _ hbounded _ => exact (hbounded p hp).resolve_right fun hstray => hkind hstray.1

end Tree

/-- Whether the tree of a text is laid out in it and the comments stand in it. -/
structure Parsed.Sound (text : List Char) (parsed : Parsed) : Prop where
  comments : ∀ c ∈ parsed.comments, c.Located text
  tree : parsed.tree.Laid text parsed.comments

/-! ### Trees that were read -/

/-- What is known of a tree that may be a part of a node from `lo` on. -/
structure Holds (text : List Char) (lo : Nat) (t : Tree) (e : Extent) : Prop where
  laid : t.Laid text e.comments
  bounded : t.Bounded lo e.stop

/-- What is known of a tree that may be a member of a series from `lo` on. -/
structure Sits (text : List Char) (lo : Nat) (t : Tree) (e : Extent) : Prop where
  holds : Holds text lo t e
  placed : t.Placed text
  settled : t.kind? = some .hole ∨ Settled text e.comments t.span.hi

/-- What is known of a tree that stands between `lo` and where reading came to. -/
structure Spans (text : List Char) (lo : Nat) (t : Tree) (e : Extent) : Prop where
  holds : Holds text lo t e
  placed : t.Placed text
  le : lo ≤ t.span.lo
  le_stop : t.span.hi ≤ e.stop

/-- What is known of a tree that was read from `lo` on. -/
structure Fits (text : List Char) (lo : Nat) (t : Tree) (e : Extent) : Prop extends
    Spans text lo t e where
  settled : Settled text e.comments t.span.hi

/-- What is known of a pattern that was read from `lo` on: it is no markup. -/
structure Binds (text : List Char) (lo : Nat) (t : Tree) (e : Extent) : Prop extends
    Fits text lo t e where
  plain : t.kind?.any Kind.isFrame = false

/-- What is known of a decorator that was read from `lo` on. -/
structure Decorates (text : List Char) (lo : Nat) (t : Tree) (e : Extent) : Prop extends
    Fits text lo t e where
  isDecorator : t.isDecorator = true

/-- Whether something is known of all members of a list. -/
def OnAll {α : Type} (P : Nat → α → Extent → Prop) (lo : Nat) (as : List α) (e : Extent) : Prop :=
  ∀ a ∈ as, P lo a e

/-- Whether something is known of what there may be. -/
def OnSome {α : Type} (P : Nat → α → Extent → Prop) (lo : Nat) (a? : Option α) (e : Extent) :
    Prop :=
  ∀ a ∈ a?, P lo a e

/-- What is needed of the parts of a node of a given kind from `lo` on. -/
def Parts (text : List Char) (kind : Kind) (lo : Nat) (ts : List Tree) (e : Extent) : Prop :=
  ∀ t ∈ ts, Holds text lo t e ∨ t.Laid text e.comments ∧ t.Stray kind ⟨lo, lo⟩

section

variable {α : Type} {P : Nat → α → Extent → Prop} {text : List Char} {L M : Nat} {e : Extent}
  {t : Tree} {ts : List Tree} {rule : Rule} {kind : Kind}

@[simp, grind =] theorem onAll_nil :
  OnAll P L [] e ↔ True
  := by
  simp [OnAll]

@[simp, grind =] theorem onAll_cons {a : α} {as : List α} :
  OnAll P L (a :: as) e ↔ P L a e ∧ OnAll P L as e
  := by
  simp [OnAll]

@[simp, grind =] theorem onAll_append {as bs : List α} :
  OnAll P L (as ++ bs) e ↔ OnAll P L as e ∧ OnAll P L bs e
  := by
  simp [OnAll, or_imp, forall_and]

@[simp, grind =] theorem onAll_toList {a? : Option α} :
  OnAll P L a?.toList e ↔ OnSome P L a? e
  := by
  simp [OnAll, OnSome]

@[simp, grind =] theorem onAll_map {β : Type} {f : β → α} {bs : List β} :
  OnAll P L (bs.map f) e ↔ OnAll (fun L b => P L (f b)) L bs e
  := by
  simp [OnAll]

@[simp, grind =] theorem onSome_none :
  OnSome P L none e ↔ True
  := by
  simp [OnSome]

@[simp, grind =] theorem onSome_some {a : α} :
  OnSome P L (some a) e ↔ P L a e
  := by
  simp [OnSome]

theorem Holds.lower (h : Holds text L t e) (hle : M ≤ L) :
  Holds text M t e
  := ⟨h.laid, h.bounded.mono hle (Nat.le_refl _)⟩

theorem Fits.lower (h : Fits text L t e) (hle : M ≤ L) :
  Fits text M t e
  := ⟨⟨h.holds.lower hle, h.placed, Nat.le_trans hle h.le, h.le_stop⟩, h.settled⟩

theorem Fits.holds_lower (h : Fits text L t e) (hle : M ≤ L) :
  Holds text M t e
  := h.holds.lower hle

theorem Fits.sits (h : Fits text L t e) :
  Sits text L t e
  := ⟨h.holds, h.placed, .inr h.settled⟩

theorem Sits.lower (h : Sits text L t e) (hle : M ≤ L) :
  Sits text M t e
  := ⟨h.holds.lower hle, h.placed, h.settled⟩

/-- A node without parts may be a part of a node. -/
theorem holds_leaf {kind : Kind} {span : Span} (hkind : kind.isFrame = false)
    (hle : span.lo ≤ span.hi) (hlo : L ≤ span.lo) (hhi : span.hi ≤ e.stop) :
  Holds text L (.node kind span []) e
  := ⟨.node (by simp) (by simp) (by simp [hkind]), .node hle fun _ => ⟨hlo, hhi⟩⟩

/-- A node that takes no bytes may be a part of every node. -/
theorem holds_empty {kind : Kind} {pos : Nat} (hkind : kind.isFrame = false) :
  Holds text L (.node kind ⟨pos, pos⟩ []) e
  := by
  refine ⟨.node (by simp) (by simp) (by simp [hkind]), .node (Nat.le_refl _) ?_⟩
  exact fun h => absurd h (Nat.lt_irrefl _)

/-- The parts of a node may be parts of another that it lies in. -/
theorem Holds.parts {kind : Kind} {span : Span} {ts : List Tree}
    (h : Holds text L (.node kind span ts) e) (hkind : kind ≠ .declaration .classDecl) :
  OnAll (Holds text) L ts e
  := by
  intro t ht
  obtain ⟨hlaid, hbounded⟩ := h
  have ht' := hlaid.bounded_part ht hkind
  cases hlaid with
  | node hparts _ _ =>
      refine ⟨hparts t ht, ?_⟩
      cases hbounded with
      | node hle hin =>
          by_cases hlt : span.lo < span.hi
          · exact ht'.mono (hin hlt).1 (hin hlt).2
          · exact ht'.of_le (Nat.not_lt.mp hlt)

/-- A tree that was read starts where it starts. -/
theorem Fits.self (h : Fits text L t e) :
  Fits text t.span.lo t e
  := by
  obtain ⟨⟨⟨hlaid, -⟩, hplaced, -, hstop⟩, hsettled⟩ := h
  exact ⟨⟨⟨hlaid, hplaced.bounded (Nat.le_refl _) hstop⟩, hplaced, Nat.le_refl _, hstop⟩, hsettled⟩

/-- A node around a tree that was read. -/
theorem Fits.wrap {kind : Kind} (h : Fits text L t e) (hkind : kind.isFrame = false) :
  Fits text L (.node kind t.span [t]) e
  := by
  obtain ⟨hle, hstop⟩ := And.intro h.le h.le_stop
  refine ⟨⟨⟨.node ?_ ?_ (by simp [hkind]), .node h.placed.le fun _ => ⟨hle, hstop⟩⟩,
    ⟨rfl, h.placed.le, h.placed.lo, h.placed.hi⟩, hle, hstop⟩, h.settled⟩
  · simpa using h.holds.laid
  · simpa using .inl (h.placed.bounded (Nat.le_refl _) (Nat.le_refl _))

/-- A node around trees that follow each other, from the first of them to the last. -/
theorem holds_sequence {first last : Tree} (h : OnAll (Fits text) L ts e) (hts : Tree.Ordered ts)
    (hfirst : ts.head? = some first) (hlast : ts.getLast? = some last)
    (hkind : kind.isFrame = false) :
  Holds text L (.node kind ⟨first.span.lo, last.span.hi⟩ ts) e
  := by
  obtain ⟨tail, rfl⟩ := List.head?_eq_some_iff.mp hfirst
  obtain ⟨init, hinit⟩ := List.getLast?_eq_some_iff.mp hlast
  have hle_last (t : Tree) (ht : t ∈ first :: tail) : t.span.hi ≤ last.span.hi := by
    rw [hinit] at ht hts h
    obtain ht | ht := List.mem_append.mp ht
    · have hlt := (List.pairwise_append.mp hts).2.2 t ht last (by simp)
      exact Nat.le_trans hlt (h last (by simp)).placed.le
    · obtain rfl := List.mem_singleton.mp ht
      exact Nat.le_refl _
  have hfirst_le (t : Tree) (ht : t ∈ first :: tail) : first.span.lo ≤ t.span.lo := by
    obtain rfl | ht := List.mem_cons.mp ht
    · exact Nat.le_refl _
    · have hlt := (List.pairwise_cons.mp hts).1 t ht
      exact Nat.le_trans (h first (by simp)).placed.le hlt
  have hhead := h first (by simp)
  have hlast := h last (List.mem_of_getLast? hlast)
  refine ⟨.node (fun t ht => (h t ht).holds.laid) (fun t ht => .inl ?_) (by simp [hkind]), ?_⟩
  · exact (h t ht).placed.bounded (hfirst_le t ht) (hle_last t ht)
  · refine .node (Nat.le_trans hhead.placed.le (hle_last first (by simp))) fun _ => ?_
    exact ⟨hhead.le, hlast.le_stop⟩

/-- A place that is left empty takes no bytes. -/
theorem sits_hole {lo : Nat} (hlo : Boundary text lo) :
  Sits text L (.node .hole ⟨lo, lo⟩ []) e
  := by
  refine ⟨⟨.node (by simp) (by simp) (by simp [Kind.isFrame]), .node (Nat.le_refl _) ?_⟩,
    ⟨rfl, Nat.le_refl _, hlo, hlo⟩, .inl rfl⟩
  exact fun h => absurd h (Nat.lt_irrefl _)

/-- Something was read when a tree was. -/
theorem Spans.le_extent (h : Spans text L t e) :
  L ≤ e.stop
  := Nat.le_trans h.le (Nat.le_trans h.placed.le h.le_stop)

theorem Spans.lower (h : Spans text L t e) (hle : M ≤ L) :
  Spans text M t e
  := ⟨h.holds.lower hle, h.placed, Nat.le_trans hle h.le, h.le_stop⟩

theorem Spans.holds_lower (h : Spans text L t e) (hle : M ≤ L) :
  Holds text M t e
  := h.holds.lower hle

theorem Fits.le_extent (h : Fits text L t e) :
  L ≤ e.stop
  := h.toSpans.le_extent

theorem OnAll.imp {Q : Nat → α → Extent → Prop} {as : List α} (h : OnAll P L as e)
    (hPQ : ∀ a, P L a e → Q M a e) :
  OnAll Q M as e
  := fun a ha => hPQ a (h a ha)

theorem OnSome.imp {Q : Nat → α → Extent → Prop} {a? : Option α} (h : OnSome P L a? e)
    (hPQ : ∀ a, P L a e → Q M a e) :
  OnSome Q M a? e
  := fun a ha => hPQ a (h a ha)

theorem onAll_holds_lower (h : OnAll (Holds text) L ts e) (hle : M ≤ L) :
  OnAll (Holds text) M ts e
  := h.imp fun _ ht => ht.lower hle

theorem onAll_fits_lower (h : OnAll (Fits text) L ts e) (hle : M ≤ L) :
  OnAll (Fits text) M ts e
  := h.imp fun _ ht => ht.lower hle

theorem onAll_fits_holds (h : OnAll (Fits text) L ts e) (hle : M ≤ L) :
  OnAll (Holds text) M ts e
  := h.imp fun _ ht => ht.holds.lower hle

theorem onAll_sits_holds (h : OnAll (Sits text) L ts e) (hle : M ≤ L) :
  OnAll (Holds text) M ts e
  := h.imp fun _ ht => ht.holds.lower hle

theorem onSome_fits_lower {t? : Option Tree} (h : OnSome (Fits text) L t? e) (hle : M ≤ L) :
  OnSome (Fits text) M t? e
  := h.imp fun _ ht => ht.lower hle

theorem onSome_fits_holds {t? : Option Tree} (h : OnSome (Fits text) L t? e) (hle : M ≤ L) :
  OnSome (Holds text) M t? e
  := h.imp fun _ ht => ht.holds.lower hle

theorem onAll_binds_fits (h : OnAll (Binds text) L ts e) :
  OnAll (Fits text) L ts e
  := h.imp fun _ ht => ht.toFits

theorem onSome_binds_fits {t? : Option Tree} (h : OnSome (Binds text) L t? e) :
  OnSome (Fits text) L t? e
  := h.imp fun _ ht => ht.toFits

theorem onAll_decorates_fits (h : OnAll (Decorates text) L ts e) :
  OnAll (Fits text) L ts e
  := h.imp fun _ ht => ht.toFits

/-- A series may be a part of a node if its members may be members of it. -/
theorem holds_series_of_sits (rule : Rule) (h : OnAll (Sits text) L ts e) (hle : M ≤ L) :
  Holds text M (.series rule ts) e
  := by
  refine ⟨.series ?_ ?_ ?_, .series ?_⟩
  · exact fun t ht => (h t ht).holds.laid
  · exact fun t ht => (h t ht).placed
  · exact fun _ t ht => (h t ht).settled
  · exact fun t ht => (h t ht).holds.bounded.mono hle (Nat.le_refl _)

theorem parts_append {us : List Tree} :
  Parts text kind L (ts ++ us) e ↔ Parts text kind L ts e ∧ Parts text kind L us e
  := by
  simp [Parts, or_imp, forall_and]

theorem parts_of_onAll (h : OnAll (Holds text) L ts e) :
  Parts text kind L ts e
  := fun t ht => .inl (h t ht)

/-- Decorators may stand in front of the class they belong to. -/
theorem parts_of_decorates (h : OnAll (Decorates text) M ts e) :
  Parts text (.declaration .classDecl) L ts e
  := by
  intro t ht
  obtain ⟨⟨⟨hholds, hplaced, -, hstop⟩, -⟩, hdecorator⟩ := h t ht
  by_cases hlt : t.span.lo < L
  · exact .inr ⟨hholds.laid, rfl, hdecorator, hlt⟩
  · exact .inl ⟨hholds.laid, hplaced.bounded (Nat.not_lt.mp hlt) hstop⟩

theorem onSome_orElse {a b : Option α} (ha : OnSome P L a e) (hb : OnSome P L b e) :
  OnSome P L (a <|> b) e
  := by
  cases a with
  | none => simpa using hb
  | some a => simpa using ha

/-- A statement may stand where a list of statements could not. -/
theorem Fits.lone (h : Fits text L t e) :
  Holds text L (.series .lone [t]) e
  := holds_series_of_sits .lone (by simpa using h.sits) (Nat.le_refl _)

/-- A statement that is missing takes no bytes. -/
theorem holds_lone_empty {kind : Kind} {pos : Nat} (hkind : kind.isFrame = false)
    (hpos : Boundary text pos) :
  Holds text L (.series .lone [.node kind ⟨pos, pos⟩ []]) e
  := by
  obtain ⟨hlaid, hbounded⟩ : Holds text L (.node kind ⟨pos, pos⟩ []) e := holds_empty hkind
  exact ⟨.series (by simpa using hlaid) (by simpa using ⟨rfl, Nat.le_refl _, hpos, hpos⟩) nofun,
    .series (by simpa using hbounded)⟩

theorem holds_series (rule : Rule) (h : OnAll (Fits text) L ts e) (hle : M ≤ L) :
  Holds text M (.series rule ts) e
  := holds_series_of_sits rule (h.imp fun _ ht => ht.sits) hle

end

grind_pattern Binds.toFits => Binds text lo t e
grind_pattern Decorates.toFits => Decorates text lo t e
grind_pattern onAll_binds_fits => OnAll (Binds text) L ts e
grind_pattern onSome_binds_fits => OnSome (Binds text) L t? e
grind_pattern onAll_decorates_fits => OnAll (Decorates text) L ts e
grind_pattern Fits.lower => Fits text L t e, Fits text M t e
grind_pattern Holds.lower => Holds text L t e, Holds text M t e
grind_pattern Fits.holds_lower => Fits text L t e, Holds text M t e
grind_pattern Spans.holds_lower => Spans text L t e, Holds text M t e
grind_pattern Spans.le_extent => Spans text L t e
grind_pattern Fits.le_extent => Fits text L t e
grind_pattern onAll_holds_lower => OnAll (Holds text) L ts e, OnAll (Holds text) M ts e
grind_pattern onAll_fits_lower => OnAll (Fits text) L ts e, OnAll (Fits text) M ts e
grind_pattern onAll_fits_holds => OnAll (Fits text) L ts e, OnAll (Holds text) M ts e
grind_pattern onAll_sits_holds => OnAll (Sits text) L ts e, OnAll (Holds text) M ts e
grind_pattern onSome_fits_lower => OnSome (Fits text) L t? e, OnSome (Fits text) M t? e
grind_pattern onSome_fits_holds => OnSome (Fits text) L t? e, OnSome (Holds text) M t? e
grind_pattern holds_series => OnAll (Fits text) L ts e, Holds text M (.series rule ts) e
grind_pattern holds_series_of_sits => OnAll (Sits text) L ts e, Holds text M (.series rule ts) e

end Prune.Source
