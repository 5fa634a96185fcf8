import Prune.Proofs.Source.Grammar.Types
import Prune.Source.Grammar.Markup

/-!
# Layout of markup

Elements and fragments are laid out as they were read, and their tags and children follow each other
(`Children`).  What stands behind a tag is read as text whatever tokens it would be, so that an
element is laid out before the gap behind it is known.
-/

namespace Prune.Source.Grammar

open Prune.Source.Parser Text

variable {text : List Char} {r : Rules} {c : Context} [Rules.Reads text r]
  {H : State → Prop} {K : Extent → Prop} {L M lo : Nat}

/-! ### Names -/

instance : Reading text simpleName fun L _ e => L ≤ e.stop where
  reads _ _ := by
    refine .peek fun t => ?_
    split
    · refine .bind (.extend (.take ?_)) fun _ => .pure fun _ h => h.2.1
      rintro s ⟨-, rfl⟩ hsound
      have hrest := hsound.tok.rest.trans (stands_markupNameTail s.tok.rest)
      exact ⟨hrest, rfl, Nat.le_trans hsound.tok.le (Nat.le_add_right _ _), rfl⟩
    · exact .fail

instance : Reading text spacedName fun L _ e => L ≤ e.stop where
  reads _ _ := by
    refine .step fun _ => .step fun _ => .ite (fun _ => .step fun _ => .pure ?_) fun _ => .pure ?_
    all_goals grind

instance : Reading text (elementName r) fun L _ e => L ≤ e.stop where
  reads _ L := by
    refine .step fun first => .iterate (P := fun L _ e => L ≤ e.stop) (fun _ => ?_) _ (by grind)
    refine .step fun _ => .ite (fun _ => .step fun _ => .pure ?_) fun _ => .pure ?_
    · grind
    · simp

/-! ### Children -/

/-- What is known of nodes that were read one after the other from `lo` on. -/
structure Children (text : List Char) (lo : Nat) (ts : List Tree) (e : Extent) : Prop where
  spans : OnAll (Spans text) lo ts e
  ordered : Tree.Ordered ts

theorem Children.append {ts us : List Tree} {e : Extent} (hts : Children text L ts e)
    (hus : Children text M us e) (hle : L ≤ M) (hhi : ∀ t ∈ ts, t.span.hi ≤ M) :
  Children text L (ts ++ us) e
  := by
  refine ⟨onAll_append.mpr ⟨hts.spans, hus.spans.imp fun _ ht => ht.lower hle⟩, ?_⟩
  refine List.pairwise_append.mpr ⟨hts.ordered, hus.ordered, fun t ht u hu => ?_⟩
  exact Nat.le_trans (hhi t ht) (hus.spans u hu).le

theorem Children.holds {ts : List Tree} {e : Extent} (h : Children text L ts e) (hle : M ≤ L) :
  Holds text M (.series .children ts) e
  := by
  refine ⟨.series ?_ ?_ nofun, .series ?_⟩
  · exact fun t ht => (h.spans t ht).holds.laid
  · exact fun t ht => (h.spans t ht).placed
  · exact fun t ht => ((h.spans t ht).holds.lower hle).bounded

@[simp] theorem flatten_series (rule : Rule) (ts : List Tree) :
  Grammar.flatten (.series rule ts) = ts
  := rfl

theorem flatten_of_placed {t : Tree} (h : t.Placed text) :
  Grammar.flatten t = [t]
  := by
  cases t with
  | node => rfl
  | series => simpa [Tree.kind?] using h.isNode

theorem children_singleton {t : Tree} {e : Extent} (h : Spans text L t e) :
  Children text L [t] e
  := ⟨by simpa using h, List.pairwise_singleton _ _⟩

/-- A mark stands behind the text of markup. No gap is looked for in front of a less sign, and there
is none in front of a brace. -/
theorem sound_behindText {s : State} (hs : s.Sound text)
    (hrest : (behindText s).prevRest.isEmpty = false) :
  (behindText s).Sound text
  := by
  have hstands : Stands text (behindText s).prevRest (behindText s).prevEnd :=
    hs.prev.trans (stands_markupText s.prevRest)
  obtain ⟨c, rest, hcons⟩ := List.exists_cons_of_ne_nil (List.isEmpty_eq_false_iff.mp hrest)
  have hc := head_markupText hcons
  have hsize : c.utf8Size = 1 := by
    obtain rfl | rfl := hc <;> rfl
  have htok : (behindText s).tok = markAt (behindText s).prevEnd (c :: rest) := hcons ▸ rfl
  have hmark : (markAt (behindText s).prevEnd (c :: rest)).Located text := by
    have hfront := hcons ▸ hstands
    have htail := hfront.cons
    rw [hsize] at htail
    refine Token.Located.cut ⟨hfront, htail, Nat.le_add_right _ _, ?_, nofun, nofun⟩ rfl hsize
    rintro _ _ ⟨⟩
    exact Nat.le_add_right _ _
  refine ⟨htok ▸ hmark, hstands, ?_, hs.comments, ?_⟩
  · rw [htok]
    exact Nat.le_refl _
  · intro rest' hrest' hhead
    obtain rfl := hstands.unique hrest'
    obtain rfl := hc.resolve_left fun hc => by simp [hcons, hc] at hhead
    use false
    rw [hcons, Gap.comments_read_cons false rfl rfl (by decide)]
    exact List.nil_subset _

theorem textNode_of_open {s : State} (h : (behindText s).prevRest.isEmpty = true) :
  textNode s = Parser.fail s
  := by
  obtain ⟨t, ht⟩ := exists_fail s
  have hfail : failIf (behindText s).prevRest.isEmpty s = .error () t := by
    rw [h]
    exact ht Unit
  rw [ht]
  exact bind_error hfail _

theorem textNode_of_ends {s : State} (h : (behindText s).prevRest.isEmpty = false) :
  textNode s = .ok (if (behindText s).prevEnd == s.prevEnd then [] else
      [.node (.markup (.text (textContent s.prevRest))) ⟨s.prevEnd, (behindText s).prevEnd⟩ []])
      (behindText s)
  := by
  have hpass : failIf (behindText s).prevRest.isEmpty s = .ok () s := by
    rw [h]
    rfl
  exact bind_ok hpass _

/-- The text of markup ends with a mark, behind which no gap is known but none is needed. -/
theorem reads_textNode (hL : ∀ e, K e → L ≤ e.stop) :
  ReadsWhen text H State.past State.extent K L textNode fun ts e =>
    Children text L ts e ∧ L ≤ e.stop
  := by
  intro s _ hsound hL' hK
  have hstop : L ≤ s.prevEnd := hL _ (hK _ (Extent.le_refl _))
  cases h : (behindText s).prevRest.isEmpty with
  | true =>
      obtain ⟨t, ht, htsound, htL, hext⟩ := hsound.fail hL'
      rw [textNode_of_open h, ht]
      exact ⟨htsound, htL, Extent.le_trans s.past_le_extent hext⟩
  | false =>
      have hsound' := sound_behindText hsound h
      have hle : s.prevEnd ≤ (behindText s).prevEnd := Nat.le_add_right _ _
      rw [textNode_of_ends h]
      refine ⟨hsound', ?_, ⟨hle, ?_⟩, fun e he => ⟨?_, ?_⟩⟩
      · exact Nat.le_trans hstop (Nat.le_trans hle hsound'.le)
      · exact List.subset_append_right _ _
      · split
        · exact ⟨by simp, .nil⟩
        · have hspans : Spans text s.prevEnd (.node (.markup (.text (textContent s.prevRest)))
              ⟨s.prevEnd, (behindText s).prevEnd⟩ []) e :=
            ReadsWhen.spans_node hsound' hsound.prev.boundary hle he.1 (by simp) (by simp) nofun
          exact children_singleton (hspans.lower hstop)
      · exact Nat.le_trans hstop (Nat.le_trans hle he.1)

theorem reads_childContainer :
  ReadsWhen text H State.extent State.past K L (childContainer r c) (Spans text L)
  := by
  refine .start fun lo hlo => .step fun _ => .eat (.enclose hlo (by grind) ?_) ?_
  · simp [Kind.isFrame]
  · refine .step fun _ => .step fun e => .bind .expect fun _ => .enclose hlo (by grind) ?_
    split <;> simp [Kind.isFrame]

/-- A child is read, and then the children behind it. -/
theorem reads_childThen {child : Parser Tree} {others : Parser (List Tree)} {ts : List Tree}
    (hchild : ∀ K L, ReadsWhen text (fun _ => True) State.extent State.past K L child (Spans text L))
    (hothers : ∀ K L, (∀ e, K e → L ≤ e.stop) →
      ReadsWhen text (fun _ => True) State.past State.extent K L others (Children text L))
    (hts : ∀ e, K e → Children text L ts e ∧ L ≤ e.stop) :
  Reads text K L (do
    let first ← child
    let rest ← others
    return ts ++ first :: rest) (Children text L)
  := by
  refine .raise (fun _ => rfl) fun M hLM hM => .bind (hchild _ _) fun first => ?_
  refine .raise (fun _ => rfl) fun N hMN hN => .bind (hothers _ _ ?_) fun rest => .pure fun e h => ?_
  · exact fun e h => h.2 (h.1.1.2 (hts e h.1.1.1).2)
  · have hM (t : Tree) (ht : t ∈ ts) := hM t.span.hi fun e h => ((hts e h).1.spans t ht).le_stop
    have hN := hN first.span.hi fun e h => h.2.le_stop
    have htail := (children_singleton h.1.1.2).append h.2 hMN (by simpa using hN)
    exact (hts e h.1.1.1.1).1.append htail hLM hM

theorem reads_markupChildren (fuel : Nat) (hL : ∀ e, K e → L ≤ e.stop) :
  ReadsWhen text H State.past State.extent K L (markupChildren r c fuel) (Children text L)
  := by
  induction fuel generalizing H K L with
  | zero => exact .narrow .fail
  | succ fuel ih =>
      refine .bind (reads_textNode hL) fun ts => .ask fun _ => .ite (fun _ => ?_) fun _ => ?_
      · refine reads_childThen (fun _ _ => reads_childContainer) (fun _ _ h => ih h) fun e h => h.2
      · refine .ask fun _ => .ite (fun _ => .pure fun _ h => h.2.1) fun _ => ?_
        refine reads_childThen ?_ (fun _ _ h => ih h) fun e h => h.2
        exact Rules.Reads.child c .child

instance : Reading text (attributeValue r c) (Spans text) where
  reads _ L := by
    refine .peek fun t => .facing (φ := L ≤ t.span.lo ∧ Stands text t.front t.span.lo) ?_ ?_
    · rintro s ⟨-, rfl⟩ hsound hL
      exact ⟨hL, hsound.tok.front⟩
    rintro ⟨hL, hfront⟩
    extract_lets lo
    split
    · next d cs hcons =>
      rw [hcons] at hfront
      refine .ite (fun hd => ?_) fun _ => .ite (fun _ => ?_) fun _ => .ite (fun _ => ?_) fun _ => .fail
      · split
        · exact .fail
        · next hstring =>
          have hsize := utf8Size_of_isQuote hd
          have hrest := hfront.cons.trans (stands_markupString hsize hstring)
          rw [hsize] at hrest
          refine .bind (.extend (.take ?_)) fun _ => ?_
          · rintro s ⟨-, rfl⟩ -
            refine ⟨hrest, rfl, ?_, rfl⟩
            simp only
            omega
          · refine (ReadsWhen.node (L := L) hfront.boundary rfl ?_).post fun _ _ _ h => ?_
            · grind
            · exact h.toSpans.lower hL
      · refine .bind (.extend reads_childContainer) fun value => ?_
        split
        · exact .fail
        · exact .pure fun _ h => h.2
      · exact .last fun _ _ _ h => h.toSpans
    · exact .fail

instance : Reading text (markupAttribute r c) (Fits text) where
  reads _ _ := by
    refine .start fun lo hlo => .step fun _ => .ite (fun _ => ?_) fun _ => .step fun _ => ?_
    · refine .here fun start hstart hle => .step fun _ => .step fun e => ?_
      refine .bind (.node hstart rfl ?_) fun spread => .step fun _ => .pure ?_
      all_goals grind
    · refine .step fun _ => .ite (fun _ => .step fun value => .node hlo rfl ?_) fun _ => .node hlo rfl ?_
      all_goals grind

omit [Rules.Reads text r] in
theorem reads_endTag {name : String} :
  ReadsWhen text H State.extent State.past K L (endTag r name) (Spans text L)
  := by
  refine .start fun lo hlo => .step fun _ => .ask fun _ => .ask fun _ => .step fun _ => .step fun _ => ?_
  refine .ask fun _ => .step fun _ => .step fun _ => .bind .expect fun _ => .enclose hlo ?_ nofun
  grind

/-- The tags of an element and its children follow each other. -/
theorem reads_elementTail {kind : Kind} {name : String} {tag : Tree} (hlo : Boundary text lo)
    (htag : ∀ e, K e → lo < e.stop ∧ Spans text lo tag e) :
  ReadsWhen text H State.past State.past K lo (elementTail r c kind lo name tag) (Spans text lo)
  := by
  refine .raise (fun _ => rfl) fun M hM htagM => .bind (reads_markupChildren r.fuel ?_) fun ts => ?_
  · exact fun e h => h.2 (Nat.le_of_lt (htag e h.1).1)
  refine .raise (fun _ => rfl) fun N hN htsN => .bind reads_endTag fun closing => ?_
  have htagM := htagM tag.span.hi fun e h => (htag e h).2.le_stop
  have htsN (t : Tree) (ht : t ∈ ts) := htsN t.span.hi fun e h => (h.2.spans t ht).le_stop
  refine .enclose hlo (fun e h => ?_) fun _ e h => ?_
  all_goals
    obtain ⟨⟨⟨⟨hK, -⟩, hts⟩, -⟩, hclosing⟩ := h
    obtain ⟨hlt, htag⟩ := htag e hK
  · refine ⟨Nat.le_of_lt hlt, ?_⟩
    simpa using ⟨htag.holds, hts.holds hM, hclosing.holds.lower (Nat.le_trans hM hN)⟩
  · have htail := hts.append (children_singleton hclosing) hN htsN
    have hall := (children_singleton htag).append htail hM (by simpa using htagM)
    refine ⟨hlt, ?_⟩
    simpa [flatten_of_placed htag.placed, flatten_of_placed hclosing.placed] using hall.ordered

/-- An element is laid out before the gap behind it is known. -/
theorem reads_element {place : Source.Place} :
  ReadsWhen text H State.extent State.past K L (element r c place) (Spans text L)
  := by
  refine .start fun lo hlo => .bind (.extend (.expectMark (by decide))) fun _ => .eat ?_ ?_
  · refine .bind (.enclose hlo (by grind) nofun) fun tag => reads_elementTail hlo ?_
    grind
  · refine .step fun name => .ask fun _ => .step fun types => .step fun attributes => ?_
    refine .step fun _ => .bind .expect fun _ => .bind (.enclose hlo ?_ nofun) fun tag => ?_
    · grind
    · refine .ite (fun _ => .enclose hlo ?_ fun _ e h => ?_) fun _ => reads_elementTail hlo ?_
      · have hnone (e : Extent) : Holds text lo (.series .children []) e :=
          holds_series _ (onAll_nil.mpr trivial) (Nat.le_refl _)
        grind
      · simpa [flatten_of_placed h.2.placed, Tree.Ordered] using h.1.1.1.1.1.1.2
      · grind

/-! ### Elements as expressions -/

/-- Whether the answer of a parser ends with the token read last. -/
def Ends (p : Parser Tree) : Prop :=
  ∀ s a t, p s = .ok a t → a.span.hi = t.prevEnd

theorem ends_node (kind : Kind) (lo : Nat) (parts : List Tree) :
  Ends (Parser.node kind lo parts)
  := by
  rintro s a t ⟨⟩
  rfl

theorem Ends.bind {α : Type} {p : Parser α} {k : α → Parser Tree} (hk : ∀ a, Ends (k a)) :
  Ends (p >>= k)
  := by
  intro s a t h
  cases hp : p s with
  | ok b u =>
      rw [bind_ok hp] at h
      exact hk b u a t h
  | error _ u =>
      rw [bind_error hp] at h
      cases h

theorem Ends.ite {b : Prop} [Decidable b] {p q : Parser Tree} (hp : Ends p) (hq : Ends q) :
  Ends (if b then p else q)
  := by
  split
  · exact hp
  · exact hq

theorem ends_elementTail (r : Rules) (c : Context) (kind : Kind) (lo : Nat) (name : String)
    (tag : Tree) :
  Ends (elementTail r c kind lo name tag)
  := .bind fun _ => .bind fun _ => ends_node _ _ _

theorem ends_element (r : Rules) (c : Context) (place : Source.Place) :
  Ends (element r c place)
  := by
  refine .bind fun lo => .bind fun _ => .bind fun _ => .ite ?_ ?_
  · exact .bind fun tag => ends_elementTail r c _ lo _ tag
  · refine .bind fun name => .bind fun _ => .bind fun types => .bind fun attributes => ?_
    refine .bind fun _ => .bind fun _ => .bind fun tag => .ite (ends_node _ _ _) ?_
    exact ends_elementTail r c _ lo name tag

/-- The gap behind an answer that ends with the token read last is known. -/
theorem reads_of_ends {p : Parser Tree} (hends : Ends p)
    (hp : ReadsWhen text H State.extent State.past K L p (Spans text L)) :
  ReadsWhen text H State.extent State.extent K L p (Fits text L)
  := by
  intro s hs hsound hL hK
  have hland := hp.extend s hs hsound hL hK
  cases hps : p s with
  | ok a t =>
      rw [hps] at hland
      obtain ⟨hsound', hL', hle, hspans⟩ := hland
      refine ⟨hsound', hL', hle, fun e he => ⟨hspans e he, ?_⟩⟩
      rw [hends s a t hps]
      exact hsound'.settled.mono he.2
  | error _ t =>
      rw [hps] at hland
      exact hland

instance (place : Source.Place) : Reading text (element r c place) (Fits text) :=
  ⟨fun _ _ => reads_of_ends (ends_element r c place) reads_element⟩

end Prune.Source.Grammar
