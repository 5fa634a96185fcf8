import Mathlib.Data.List.Forall2
import Prune.Proofs.Source.Layout
import Prune.Source.Grammar.Basic

/-!
# What parsers read

A logic for parsers.  `Reads text K L p P` says that a parser `p` which starts at an offset `L` or
behind it reads on in the text, whether or not it fails, and that what it gives satisfies `P`.  The
conditions `K` and `P` speak of how far the text was read (`Extent`) and hold from some point on, so
that what is known of the trees read before stays known while reading goes on.

There is one rule for each way to put parsers together.  What a single parser gives is looked up by
its form (`Reading`), so that a rule of the grammar is gone through step by step (`ReadsWhen.step`)
until it answers with a node, whose parts are known by then (`ReadsWhen.node`).
-/

namespace Prune.Source

open Text

/-- Kinds of nodes that are no markup. -/
class Kind.Plain (kind : Kind) : Prop where
  isFrame_eq : kind.isFrame = false

instance (text : String) : Kind.Plain (.name text) := ⟨rfl⟩
instance : Kind.Plain .null := ⟨rfl⟩
instance (b : Bool) : Kind.Plain (.boolean b) := ⟨rfl⟩
instance (x : Float) : Kind.Plain (.number x) := ⟨rfl⟩
instance (text : String) : Kind.Plain (.bigint text) := ⟨rfl⟩
instance (value : Option String) : Kind.Plain (.string value) := ⟨rfl⟩
instance : Kind.Plain .thisValue := ⟨rfl⟩
instance (form : TypeForm) : Kind.Plain (.type form) := ⟨rfl⟩

namespace Parser

/-- How far a text was read, the gap before the token to come included. -/
def State.extent (s : State) : Extent :=
  ⟨s.prevEnd, s.tok.comments ++ s.comments⟩

/-- How far a text was read, the gap before the token to come apart. -/
def State.past (s : State) : Extent :=
  ⟨s.prevEnd, s.comments⟩

/-- Whether the tokens and the comments of a state stand in the text where they say. -/
structure State.Sound (text : List Char) (s : State) : Prop where
  tok : s.tok.Located text
  prev : Stands text s.prevRest s.prevEnd
  le : s.prevEnd ≤ s.tok.span.lo
  comments : ∀ c ∈ s.comments, c.Located text
  settled : Settled text s.extent.comments s.prevEnd

theorem State.past_le_extent (s : State) :
  s.past ≤ s.extent
  := ⟨Nat.le_refl _, List.subset_append_right _ _⟩

/-- What becomes of reading: `start` is how far the text was read before, and `after` how far it is
read then. -/
def Lands {α : Type} (text : List Char) (L : Nat) (start : Extent) (after : State → Extent)
    (P : α → Extent → Prop) : EStateM.Result Unit State α → Prop
  | .ok a t => t.Sound text ∧ L ≤ t.tok.span.lo ∧ start ≤ after t ∧ ∀ e, after t ≤ e → P a e
  | .error _ t => t.Sound text ∧ L ≤ t.tok.span.lo ∧ start ≤ t.extent

/-- Whether a parser that starts at `L` or behind it, in a state for which `H` holds and where `K` is
known, reads on in the text and gives what satisfies `P`. -/
def ReadsWhen {α : Type} (text : List Char) (H : State → Prop) (before after : State → Extent)
    (K : Extent → Prop) (L : Nat) (p : Parser α) (P : α → Extent → Prop) : Prop :=
  ∀ s, H s → s.Sound text → L ≤ s.tok.span.lo → (∀ e, before s ≤ e → K e) →
    Lands text L (before s) after P (p s)

/-- Whether a parser that starts at `L` or behind it, where `K` is known, reads on in the text and
gives what satisfies `P`. -/
abbrev Reads {α : Type} (text : List Char) (K : Extent → Prop) (L : Nat) (p : Parser α)
    (P : α → Extent → Prop) : Prop :=
  ReadsWhen text (fun _ => True) State.extent State.extent K L p P

/-- Parsers that give what satisfies `P` wherever they start. -/
class Reading {α : Type} (text : List Char) (p : Parser α)
    (P : outParam (Nat → α → Extent → Prop)) : Prop where
  reads : ∀ K L, Reads text K L p (P L)

/-- Parsers that read nothing and may fail or find a flaw. What they answer with satisfies `P`. -/
class Still {α : Type} (p : Parser α) (P : outParam (α → Prop)) : Prop where
  still : ∀ s, ∃ flawed, p s = Parser.fail { s with flawed := flawed } ∨
    ∃ a, p s = .ok a { s with flawed := flawed } ∧ P a

/-- Parsers that read nothing and do not fail. -/
class Quiet {α : Type} (p : Parser α) : Prop where
  quiet : ∀ s, ∃ a, p s = .ok a s

section

variable {α β : Type} {text : List Char} {H : State → Prop} {f g h : State → Extent}
  {K K' : Extent → Prop} {L M : Nat} {p q : Parser α} {P Q : α → Extent → Prop}

theorem bind_ok {s t : State} {a : α} (hp : p s = .ok a t) (k : α → Parser β) :
  (p >>= k) s = k a t
  := by
  simp [bind, EStateM.bind, hp]

theorem bind_error {s t : State} (hp : p s = .error () t) (k : α → Parser β) :
  (p >>= k) s = .error () t
  := by
  simp [bind, EStateM.bind, hp]

theorem Lands.mono {start start' : Extent} {r : EStateM.Result Unit State α}
    (hr : Lands text L start g P r) (hL : M ≤ L) (hstart : start' ≤ start)
    (hP : ∀ a e, start ≤ e → P a e → Q a e) :
  Lands text M start' g Q r
  := by
  cases r with
  | ok a t =>
      obtain ⟨hsound, hle, hext, hpost⟩ := hr
      exact ⟨hsound, Nat.le_trans hL hle, Extent.le_trans hstart hext,
        fun e he => hP a e (Extent.le_trans hext he) (hpost e he)⟩
  | error _ t =>
      obtain ⟨hsound, hle, hext⟩ := hr
      exact ⟨hsound, Nat.le_trans hL hle, Extent.le_trans hstart hext⟩

/-! ### Parsers that read nothing -/

instance (a : α) : Quiet (pure a : Parser α) := ⟨fun _ => ⟨a, rfl⟩⟩

instance Quiet.bind {k : α → Parser β} [hp : Quiet p] [hk : ∀ a, Quiet (k a)] : Quiet (p >>= k) where
  quiet s := by
    obtain ⟨a, ha⟩ := hp.quiet s
    rw [bind_ok ha]
    exact (hk a).quiet s

instance {c : Prop} [Decidable c] [hp : Quiet p] [hq : Quiet q] : Quiet (if c then p else q) where
  quiet s := by
    split
    · exact hp.quiet s
    · exact hq.quiet s

instance : Quiet Parser.peek := ⟨fun s => ⟨s.tok, rfl⟩⟩
instance (t : Token) : Quiet (peekBehind t) := ⟨fun s => ⟨s.tokenAt t.span.hi t.rest, rfl⟩⟩
instance : Quiet peekSecond := inferInstanceAs (Quiet (Parser.peek >>= peekBehind))
instance : Quiet peekThird := inferInstanceAs (Quiet (peekSecond >>= peekBehind))
instance : Quiet (get : Parser State) := ⟨fun s => ⟨s, rfl⟩⟩
instance : Quiet Parser.here := ⟨fun s => ⟨s.tok.span.lo, rfl⟩⟩
instance : Quiet prevEnd := ⟨fun s => ⟨s.prevEnd, rfl⟩⟩
instance (s : State) (parts : List Tree) : Quiet (wordsSince s parts) :=
  inferInstanceAs (Quiet (prevEnd >>= fun hi => pure (s.wordsBefore hi parts)))
instance (mark : String) : Quiet (at? mark) := by unfold at?; infer_instance
instance (marks : List String) : Quiet (atAny? marks) := by unfold atAny?; infer_instance
instance (word : String) : Quiet (atWord? word) := by unfold atWord?; infer_instance
instance (words : List String) : Quiet (atAnyOf? words) := by unfold atAnyOf?; infer_instance
instance : Quiet atStop? := by unfold atStop?; infer_instance
instance : Quiet newline? := by unfold newline?; infer_instance
instance : Quiet atBlockEnd? := by unfold atBlockEnd?; infer_instance
instance : Quiet canEnd? := by unfold canEnd?; infer_instance
instance (c : Context) : Quiet (atName? c) := by unfold atName?; infer_instance
instance : Quiet atAnyWord? := by unfold atAnyWord?; infer_instance

instance (p : Parser Bool) : Quiet (lookahead p) where
  quiet s := by
    unfold lookahead
    split
    · exact ⟨_, rfl⟩
    · exact ⟨_, rfl⟩

namespace ReadsWhen

/-! ### Rules -/

/-- One parser after another. -/
theorem bind {k : α → Parser β} {R : β → Extent → Prop} (hp : ReadsWhen text H f g K L p P)
    (hk : ∀ a, ReadsWhen text (fun _ => True) g h (fun e => K e ∧ P a e) L (k a) R) :
  ReadsWhen text H f h K L (p >>= k) R
  := by
  intro s hs hsound hL hK
  have hland := hp s hs hsound hL hK
  cases hps : p s with
  | ok a t =>
      rw [hps] at hland
      obtain ⟨hsound', hL', hle, hP⟩ := hland
      rw [bind_ok hps]
      apply (hk a t trivial hsound' hL' ?_).mono (Nat.le_refl _) hle fun _ _ _ => id
      exact fun e he => ⟨hK e (Extent.le_trans hle he), hP e he⟩
  | error _ t =>
      rw [hps] at hland
      rw [bind_error hps]
      exact hland

/-- A parser that reads nothing before another. -/
theorem ask {k : α → Parser β} {R : β → Extent → Prop} [hq : Quiet q]
    (hk : ∀ a, ReadsWhen text H f g K L (k a) R) :
  ReadsWhen text H f g K L (q >>= k) R
  := by
  intro s hs hsound hL hK
  obtain ⟨a, ha⟩ := hq.quiet s
  rw [bind_ok ha]
  exact hk a s hs hsound hL hK

/-- The token to read next. -/
theorem peek {k : Token → Parser β} {R : β → Extent → Prop}
    (hk : ∀ t, ReadsWhen text (fun s => H s ∧ s.tok = t) f g K L (k t) R) :
  ReadsWhen text H f g K L (Parser.peek >>= k) R
  := by
  intro s hs hsound hL hK
  exact hk s.tok s ⟨hs, rfl⟩ hsound hL hK

/-- What is asked of the token to read next. -/
theorem token {φ : Token → α} {k : α → Parser β} {R : β → Extent → Prop}
    (hk : ∀ t, ReadsWhen text (fun s => H s ∧ s.tok = t) f g K L (k (φ t)) R) :
  ReadsWhen text H f g K L ((do return φ (← Parser.peek)) >>= k) R
  := fun s hs hsound hL hK => hk s.tok s ⟨hs, rfl⟩ hsound hL hK

/-- A fact about the state that reading starts from. -/
theorem facing {φ : Prop} (hφ : ∀ s, H s → s.Sound text → L ≤ s.tok.span.lo → φ)
    (hp : φ → ReadsWhen text H f g K L p P) :
  ReadsWhen text H f g K L p P
  := fun s hs hsound hL hK => hp (hφ s hs hsound hL) s hs hsound hL hK

/-- The offset of the token to read next becomes the one that reading starts from. -/
theorem here {k : Nat → Parser β} {R : β → Extent → Prop}
    (hk : ∀ lo, Boundary text lo → L ≤ lo → ReadsWhen text H f g K lo (k lo) R) :
  ReadsWhen text H f g K L (Parser.here >>= k) R
  := by
  intro s hs hsound hL hK
  have hland := hk s.tok.span.lo hsound.tok.front.boundary hL s hs hsound (Nat.le_refl _) hK
  exact hland.mono hL (Extent.le_refl _) fun _ _ _ => id

theorem ite {c : Prop} [Decidable c] (hp : c → ReadsWhen text H f g K L p P)
    (hq : ¬c → ReadsWhen text H f g K L q P) :
  ReadsWhen text H f g K L (if c then p else q) P
  := by
  split
  · next h => exact hp h
  · next h => exact hq h

theorem weaken (hp : ReadsWhen text H f g K L p P) {H' : State → Prop} (hH : ∀ s, H' s → H s)
    (hK : ∀ e, K' e → K e) (hP : ∀ a e, K' e → P a e → Q a e) :
  ReadsWhen text H' f g K' L p Q
  := by
  intro s hs hsound hL hK'
  have hland := hp s (hH s hs) hsound hL fun e he => hK e (hK' e he)
  exact hland.mono (Nat.le_refl _) (Extent.le_refl _) fun a e he => hP a e (hK' e he)

/-- What a parser gives may be known less well. -/
theorem post (hp : ReadsWhen text H f g K L p P) (hP : ∀ a e, K e → P a e → Q a e) :
  ReadsWhen text H f g K L p Q
  := hp.weaken (fun _ => id) (fun _ => id) hP

/-- What holds wherever a parser starts holds in some states. -/
theorem of_reads (hp : ReadsWhen text (fun _ => True) f g K L p P) :
  ReadsWhen text H f g K L p P
  := hp.weaken (fun _ _ => trivial) (fun _ => id) fun _ _ _ => id

/-- A fact that is known and does not depend on how far was read. -/
theorem given {φ : Prop} (hφ : ∀ e, K e → φ) (hp : φ → ReadsWhen text H f g K L p P) :
  ReadsWhen text H f g K L p P
  := fun s hs hsound hL hK => hp (hφ _ (hK _ (Extent.le_refl _))) s hs hsound hL hK

/-- Reading goes on from the end of the token read last, behind all that was read before. -/
theorem raise (hf : ∀ s, (f s).stop = s.prevEnd)
    (hp : ∀ N, L ≤ N → (∀ M, (∀ e, K e → M ≤ e.stop) → M ≤ N) →
      ReadsWhen text H f g (fun e => K e ∧ (L ≤ e.stop → N ≤ e.stop)) N p P) :
  ReadsWhen text H f g K L p P
  := by
  intro s hs hsound hL hK
  have hland := hp (max L s.prevEnd) (Nat.le_max_left _ _) ?_ s hs hsound ?_ ?_
  · exact hland.mono (Nat.le_max_left _ _) (Extent.le_refl _) fun _ _ _ => id
  · intro M hM
    have hstop := hM _ (hK _ (Extent.le_refl _))
    rw [hf] at hstop
    exact Nat.le_trans hstop (Nat.le_max_right _ _)
  · exact Nat.max_le.mpr ⟨hL, hsound.le⟩
  · refine fun e he => ⟨hK e he, fun hstop => Nat.max_le.mpr ⟨hstop, ?_⟩⟩
    rw [← hf]
    exact he.1

theorem pure {a : α} (h : ∀ e, K e → P a e) :
  ReadsWhen text H f f K L (pure a) P
  := fun _ _ hsound hL hK => ⟨hsound, hL, Extent.le_refl _, fun e he => h e (hK e he)⟩

/-- What is read is answered with. -/
theorem answer {P : Nat → α → Extent → Prop} (hp : ReadsWhen text H f g K L p (P M)) :
  ReadsWhen text H f g K L (p >>= fun a => Pure.pure (some a)) (OnSome P M)
  := bind hp fun _ => pure fun _ h => onSome_some.mpr h.2

/-- A parser that is known by its form, before another. -/
theorem step {k : α → Parser β} {R : β → Extent → Prop} {P : Nat → α → Extent → Prop}
    [hp : Reading text p P]
    (hk : ∀ a, ReadsWhen text (fun _ => True) State.extent g (fun e => K e ∧ P L a e) L (k a) R) :
  ReadsWhen text H State.extent g K L (p >>= k) R
  := bind (of_reads (hp.reads K L)) hk

/-- A parser that is known by its form, alone. -/
theorem same {P : Nat → α → Extent → Prop} [hp : Reading text p P] :
  ReadsWhen text H State.extent State.extent K L p (P L)
  := of_reads (hp.reads K L)

/-- A parser that is known by its form, at the end. -/
theorem last {P : Nat → α → Extent → Prop} [hp : Reading text p P]
    (h : ∀ a e, K e → P L a e → Q a e) :
  ReadsWhen text H State.extent State.extent K L p Q
  := same.post h

end ReadsWhen

/-! ### Tokens -/

/-- Whether a token may be read in the place of the one to read next. -/
structure State.Offers (text : List Char) (s : State) (t : Token) : Prop where
  rest : Stands text t.rest t.span.hi
  lo : t.span.lo = s.tok.span.lo
  le : t.span.lo ≤ t.span.hi
  comments : t.comments = s.tok.comments

theorem State.Sound.offers_tok {s : State} (hs : s.Sound text) :
  s.Offers text s.tok
  := ⟨hs.tok.rest, rfl, hs.tok.le, rfl⟩

/-- The state behind a token, which is read with the gap before it. -/
theorem State.Sound.after {s : State} {t : Token} (hs : s.Sound text) (ht : s.Offers text t)
    (hL : L ≤ s.tok.span.lo) :
  (s.after t).Sound text ∧ L ≤ (s.after t).tok.span.lo ∧ s.extent ≤ (s.after t).past ∧
    L ≤ (s.after t).prevEnd
  := by
  have hread := Token.le_read s.modular false ht.rest
  have hprev : L ≤ t.span.hi := by
    rw [← ht.lo] at hL
    exact Nat.le_trans hL ht.le
  refine ⟨⟨Token.located_read _ _ ht.rest, ht.rest, hread, ?_, ?_⟩, Nat.le_trans hprev hread,
    ⟨?_, ?_⟩, hprev⟩
  · intro c hc
    simp only [State.after, ht.comments, List.mem_append, List.mem_reverse] at hc
    obtain hc | hc := hc
    · exact hs.tok.comments c hc
    · exact hs.comments c hc
  · intro rest hrest _
    obtain rfl := hrest.unique ht.rest
    exact ⟨false, List.subset_append_left _ _⟩
  · change s.prevEnd ≤ t.span.hi
    rw [← ht.lo] at hL
    have := hs.le
    have := ht.le
    have := ht.lo
    omega
  · intro c hc
    simp only [State.extent, List.mem_append] at hc
    simp only [State.past, State.after, ht.comments, List.mem_append, List.mem_reverse]
    exact hc

theorem exists_fail (s : State) :
  ∃ t, ∀ α, (Parser.fail : Parser α) s = .error () t
  := by
  by_cases hbad : s.tok.kind = .bad
  · exact ⟨s.after s.tok, fun α => by simp [Parser.fail, hbad]⟩
  · refine ⟨s, fun α => ?_⟩
    unfold Parser.fail
    split
    · contradiction
    · rfl

/-- Where a parser that fails stops. -/
theorem State.Sound.fail {s : State} (hs : s.Sound text) (hL : L ≤ s.tok.span.lo) :
  ∃ t, (∀ α, (Parser.fail : Parser α) s = .error () t) ∧ t.Sound text ∧ L ≤ t.tok.span.lo ∧
    s.extent ≤ t.extent
  := by
  obtain ⟨t, ht⟩ := exists_fail s
  refine ⟨t, ht, ?_⟩
  have hunit := ht Unit
  unfold Parser.fail at hunit
  split at hunit
  · obtain rfl : s.after s.tok = t := by simpa using hunit
    obtain ⟨hsound, hL', hle, -⟩ := hs.after hs.offers_tok hL
    exact ⟨hsound, hL', Extent.le_trans hle (State.past_le_extent _)⟩
  · obtain rfl : s = t := by simpa using hunit
    exact ⟨hs, hL, Extent.le_refl _⟩

theorem State.Sound.flawed {s : State} (hs : s.Sound text) (flawed : Bool) :
  ({ s with flawed := flawed } : State).Sound text
  := ⟨hs.tok, hs.prev, hs.le, hs.comments, hs.settled⟩

namespace ReadsWhen

theorem fail :
  ReadsWhen text H State.extent g K L (Parser.fail : Parser α) P
  := by
  intro s _ hsound hL hK
  obtain ⟨t, ht, h⟩ := hsound.fail hL
  rw [ht]
  exact h

/-- A parser that reads nothing before another, for which the state is as before. -/
theorem still {k : α → Parser β} {P : α → Prop} {R : β → Extent → Prop} [hp : Still p P]
    (hH : ∀ s flawed, H s → H { s with flawed := flawed })
    (hk : ∀ a, P a → ReadsWhen text H State.extent g K L (k a) R) :
  ReadsWhen text H State.extent g K L (p >>= k) R
  := by
  intro s hs hsound hL hK
  obtain ⟨flawed, hfail | ⟨a, hok, ha⟩⟩ := hp.still s
  · obtain ⟨t, ht, h⟩ := (hsound.flawed flawed).fail hL
    rw [ht] at hfail
    rw [bind_error hfail]
    exact h
  · rw [bind_ok hok]
    exact hk a ha _ (hH s flawed hs) (hsound.flawed flawed) hL hK

/-- A token that is read belongs to what was read then, with the gap before it. -/
theorem take {t : Token} (ht : ∀ s, H s → s.Sound text → s.Offers text t) :
  ReadsWhen text H State.extent State.past K L (Parser.take t) fun _ e =>
    L ≤ e.stop ∧ t.span.hi ≤ e.stop
  := by
  unfold Parser.take
  split
  · exact fail
  · intro s hs hsound hL hK
    obtain ⟨hsound', hL', hle, hprev⟩ := hsound.after (ht s hs hsound) hL
    exact ⟨hsound', hL', hle, fun e he => ⟨Nat.le_trans hprev he.1, he.1⟩⟩

/-- Another token may stand in the place of the one to read next. -/
theorem replace {t : Token} (ht : ∀ s, H s → s.Sound text →
      t.Located text ∧ t.span.lo = s.tok.span.lo ∧ t.comments = s.tok.comments) :
  ReadsWhen text H State.extent State.extent K L (Parser.replace t) fun _ _ => True
  := by
  intro s hs hsound hL hK
  obtain ⟨hlocated, hlo, hcomments⟩ := ht s hs hsound
  have hextent : ({ s with tok := t } : State).extent = s.extent := by
    simp [State.extent, hcomments]
  refine ⟨⟨hlocated, hsound.prev, ?_, hsound.comments, ?_⟩, ?_, ?_, fun _ _ => trivial⟩
  · exact hlo ▸ hsound.le
  · rw [hextent]
    exact hsound.settled
  · exact hlo ▸ hL
  · rw [hextent]
    exact Extent.le_refl _

/-- What is known before the gap in front of the next token is known behind it, too. -/
theorem extend (hp : ReadsWhen text H f State.past K L p P) :
  ReadsWhen text H f State.extent K L p P
  := by
  intro s hs hsound hL hK
  have hland := hp s hs hsound hL hK
  cases hps : p s with
  | ok a t =>
      rw [hps] at hland
      obtain ⟨hsound', hL', hle, hP⟩ := hland
      have hpast := State.past_le_extent t
      exact ⟨hsound', hL', Extent.le_trans hle hpast, fun e he => hP e (Extent.le_trans hpast he)⟩
  | error _ t =>
      rw [hps] at hland
      exact hland

/-- What holds where the gap in front of the next token is known holds where less is known. -/
theorem narrow (hp : ReadsWhen text H State.extent g K L p P) :
  ReadsWhen text H State.past g K L p P
  := by
  intro s hs hsound hL hK
  have hland := hp s hs hsound hL fun e he => hK e (Extent.le_trans s.past_le_extent he)
  exact hland.mono (Nat.le_refl _) s.past_le_extent fun _ _ _ => id

theorem advance :
  ReadsWhen text H State.extent State.past K L Parser.advance fun _ e => L ≤ e.stop
  := by
  refine peek fun t => ?_
  refine (take ?_).post fun _ _ _ h => h.1
  rintro s ⟨-, rfl⟩ hsound
  exact hsound.offers_tok

theorem expect {mark : String} :
  ReadsWhen text H State.extent State.past K L (Parser.expect mark) fun _ e => L ≤ e.stop
  := by
  refine ask fun b => ite (fun _ => advance) fun _ => fail

/-- A mark takes bytes. -/
theorem expectMark {mark : String} (hmark : mark ≠ ",") :
  ReadsWhen text H State.extent State.past K L (Parser.expect mark) fun _ e => L < e.stop
  := by
  refine token fun t => ite (fun ht => peek fun u => ?_) fun _ => fail
  refine facing (φ := L < u.span.hi) ?_ fun hlt => (take ?_).post fun _ _ _ h => ?_
  · rintro s ⟨⟨-, rfl⟩, rfl⟩ hsound hL
    exact Nat.lt_of_le_of_lt hL (hsound.tok.punct _ (Token.kind_of_isPunct ht) hmark).2
  · rintro s ⟨-, rfl⟩ hsound
    exact hsound.offers_tok
  · exact Nat.lt_of_lt_of_le hlt h.2

/-- Reading a mark that may come next. -/
theorem eat {mark : String} {k : Bool → Parser β} {R : β → Extent → Prop}
    (htrue : ReadsWhen text (fun _ => True) State.past g (fun e => K e ∧ L ≤ e.stop) L (k true) R)
    (hfalse : ReadsWhen text H State.extent g K L (k false) R) :
  ReadsWhen text H State.extent g K L (Parser.eat mark >>= k) R
  := by
  have heq : (Parser.eat mark >>= k) = (do
      let b ← at? mark
      if b then Parser.advance; k true else k false) := by
    simp only [Parser.eat, bind_assoc]
    congr
    funext b
    cases b <;> simp
  rw [heq]
  exact ask fun _ => ite (fun _ => bind advance fun _ => htrue) fun _ => hfalse

theorem choose {b : Bool} (hp : b = true → ReadsWhen text H f g K L p P)
    (hq : b = false → ReadsWhen text H f g K L q P) :
  ReadsWhen text H f g K L (Parser.choose b p q) P
  := ite hp fun hb => hq (by simpa using hb)

/-- What a parser read is taken back when it fails or answers with nothing. -/
theorem attempt {p : Parser (Option α)} {P : Nat → α → Extent → Prop}
    (hp : ReadsWhen text H State.extent State.extent K L p (OnSome P M)) :
  ReadsWhen text H State.extent State.extent K L (Parser.attempt p) (OnSome P M)
  := by
  intro s hs hsound hL hK
  have hland := hp s hs hsound hL hK
  have hnone : Lands text L s.extent State.extent (OnSome P M) (.ok none s) :=
    ⟨hsound, hL, Extent.le_refl _, by simp⟩
  unfold Parser.attempt
  split
  · next heq =>
    rw [heq] at hland
    exact hland
  · exact hnone
  · exact hnone

theorem attemptIf {b : Bool} {p : Parser (Option α)} {P : Nat → α → Extent → Prop}
    (hp : b = true → ReadsWhen text H State.extent State.extent K L p (OnSome P M)) :
  ReadsWhen text H State.extent State.extent K L (Parser.attemptIf b p) (OnSome P M)
  := choose (fun hb => attempt (hp hb)) fun _ => pure (by simp)

/-- Reading goes on where a parser failed. -/
theorem recover {P : Nat → α → Extent → Prop}
    (hp : ReadsWhen text H State.extent State.extent K L p (P M)) :
  ReadsWhen text H State.extent State.extent K L (Parser.recover p) (OnSome P M)
  := by
  intro s hs hsound hL hK
  have hland := hp s hs hsound hL hK
  unfold Parser.recover
  split
  · next a t heq =>
    rw [heq] at hland
    obtain ⟨hsound', hL', hle, hP⟩ := hland
    exact ⟨hsound', hL', hle, fun e he => by simpa using hP e he⟩
  · next t heq =>
    rw [heq] at hland
    exact ⟨hland.1, hland.2.1, hland.2.2, by simp⟩

/-- What a step keeps is kept as long as steps are taken. -/
theorem iterate {step : α → Parser (Option α)} {P : Nat → α → Extent → Prop}
    (hstep : ∀ a, Reads text (fun e => K e ∧ P M a e) L (step a) (OnSome P M)) (fuel : Nat)
    {a : α} (ha : ∀ e, K e → P M a e) :
  ReadsWhen text H State.extent State.extent K L (Parser.iterate step fuel a) (P M)
  := by
  apply of_reads
  induction fuel generalizing a K with
  | zero => exact fail
  | succ fuel ih =>
      refine bind ((hstep a).weaken (fun _ => id) (fun e h => ⟨h, ha e h⟩) fun _ _ _ => id)
        fun b? => ?_
      cases b? with
      | some b =>
          refine ih (fun a => (hstep a).weaken (fun _ => id) ?_ fun _ _ _ => id) fun e h => ?_
          · exact fun e h => ⟨h.1.1, h.2⟩
          · exact onSome_some.mp h.2
      | none => exact pure fun e h => ha e h.1

/-! ### Nodes -/

/-- A node that ends where reading came to. -/
theorem spans_node {s : State} {kind : Kind} {lo : Nat} {parts : List Tree} {e : Extent}
    (hs : s.Sound text) (hlo : Boundary text lo) (hle : lo ≤ s.prevEnd) (he : s.prevEnd ≤ e.stop)
    (hlaid : ∀ p ∈ parts, p.Laid text e.comments)
    (hbounded : ∀ p ∈ parts, p.Bounded lo s.prevEnd ∨ p.Stray kind ⟨lo, s.prevEnd⟩)
    (hframe : kind.isFrame = true → lo < s.prevEnd ∧ Tree.Ordered (parts.flatMap Grammar.flatten)) :
  Spans text lo (.node kind ⟨lo, s.prevEnd⟩ parts) e
  := by
  have hplaced : Tree.Placed text (.node kind ⟨lo, s.prevEnd⟩ parts) :=
    ⟨rfl, hle, hlo, hs.prev.boundary⟩
  refine ⟨⟨.node hlaid hbounded fun hkind => ?_, .node hle fun _ => ⟨Nat.le_refl _, he⟩⟩, hplaced,
    Nat.le_refl _, he⟩
  exact ⟨(hframe hkind).1, hplaced, (hframe hkind).2⟩

theorem spans_of_parts {s : State} {kind : Kind} {lo : Nat} {parts : List Tree}
    (hf : (f s).stop = s.prevEnd) (hs : s.Sound text) (hlo : Boundary text lo)
    (h : ∀ e, f s ≤ e → lo ≤ e.stop ∧ Parts text kind lo parts e)
    (hframe : kind.isFrame = true → ∀ e, f s ≤ e →
      lo < e.stop ∧ Tree.Ordered (parts.flatMap Grammar.flatten)) {e : Extent} (he : f s ≤ e) :
  Spans text lo (.node kind ⟨lo, s.prevEnd⟩ parts) e
  := by
  obtain ⟨hle, hparts⟩ := h (f s) (Extent.le_refl _)
  rw [hf] at hle
  refine spans_node hs hlo hle (hf ▸ he.1) ?_ ?_ fun hkind => ?_
  · intro p hp
    obtain hholds | ⟨hlaid, -⟩ := (h e he).2 p hp
    · exact hholds.laid
    · exact hlaid
  · intro p hp
    obtain hholds | ⟨-, hstray⟩ := hparts p hp
    · exact .inl (hf ▸ hholds.bounded)
    · exact .inr hstray
  · have hkind := hframe hkind _ (Extent.le_refl _)
    rwa [hf] at hkind

/-- A node is answered with, some of whose parts may stand in front of it. -/
theorem nodeOfParts {kind : Kind} {lo : Nat} {parts : List Tree} (hlo : Boundary text lo)
    (hkind : kind.isFrame = false) (h : ∀ e, K e → lo ≤ e.stop ∧ Parts text kind lo parts e) :
  ReadsWhen text H State.extent State.extent K L (Parser.node kind lo parts) fun t e =>
    Fits text lo t e ∧ t.kind? = some kind
  := by
  intro s _ hsound hL hK
  refine ⟨hsound, hL, Extent.le_refl _, fun e he => ⟨⟨?_, hsound.settled.mono he.2⟩, rfl⟩⟩
  exact spans_of_parts rfl hsound hlo (fun e he => h e (hK e he)) (by simp [hkind]) he

/-- A node of a given kind is answered with. -/
theorem nodeOfKind {kind : Kind} {lo : Nat} {parts : List Tree} (hlo : Boundary text lo)
    (hkind : kind.isFrame = false) (h : ∀ e, K e → lo ≤ e.stop ∧ OnAll (Holds text) lo parts e) :
  ReadsWhen text H State.extent State.extent K L (Parser.node kind lo parts) fun t e =>
    Fits text lo t e ∧ t.kind? = some kind
  := nodeOfParts hlo hkind fun e he => ⟨(h e he).1, parts_of_onAll (h e he).2⟩

/-- A node is answered with. -/
theorem node {kind : Kind} {lo : Nat} {parts : List Tree} (hlo : Boundary text lo)
    (hkind : kind.isFrame = false) (h : ∀ e, K e → lo ≤ e.stop ∧ OnAll (Holds text) lo parts e) :
  ReadsWhen text H State.extent State.extent K L (Parser.node kind lo parts) (Fits text lo)
  := (nodeOfKind hlo hkind h).post fun _ _ _ => And.left

/-- A node is answered with, whatever follows it. -/
theorem enclose {kind : Kind} {lo : Nat} {parts : List Tree} (hlo : Boundary text lo)
    (h : ∀ e, K e → lo ≤ e.stop ∧ OnAll (Holds text) lo parts e)
    (hframe : kind.isFrame = true → ∀ e, K e →
      lo < e.stop ∧ Tree.Ordered (parts.flatMap Grammar.flatten)) :
  ReadsWhen text H State.past State.past K L (Parser.node kind lo parts) (Spans text lo)
  := by
  intro s _ hsound hL hK
  refine ⟨hsound, hL, Extent.le_refl _, fun e he => ?_⟩
  refine spans_of_parts rfl hsound hlo (fun e he => ?_) (fun hkind e he => ?_) he
  · exact ⟨(h e (hK e he)).1, parts_of_onAll (h e (hK e he)).2⟩
  · exact hframe hkind e (hK e he)

/-- A node that is bound is answered with. -/
theorem binds {kind : Kind} {lo : Nat} {parts : List Tree} (hlo : Boundary text lo)
    (hkind : kind.isFrame = false) (h : ∀ e, K e → lo ≤ e.stop ∧ OnAll (Holds text) lo parts e) :
  ReadsWhen text H State.extent State.extent K L (Parser.node kind lo parts) (Binds text lo)
  := (nodeOfKind hlo hkind h).post fun _ _ _ ht => ⟨ht.1, by simp [ht.2, hkind]⟩

end ReadsWhen

/-! ### Parsers by their form -/

instance (b : Bool) : Still (failIf b) fun _ => b = false where
  still s := by
    use s.flawed
    cases b with
    | true => exact .inl rfl
    | false => exact .inr ⟨(), rfl, rfl⟩

instance : Still flaw fun _ => True := ⟨fun _ => ⟨true, .inr ⟨(), rfl, trivial⟩⟩⟩

instance (b : Bool) : Still (flawIf b) fun _ => True where
  still s := by
    cases b with
    | true => exact ⟨true, .inr ⟨(), rfl, trivial⟩⟩
    | false => exact ⟨s.flawed, .inr ⟨(), rfl, trivial⟩⟩

theorem Still.bind {k : α → Parser β} {P : α → Prop} {Q : β → Prop} (hp : Still p P)
    (hk : ∀ a, P a → Still (k a) Q) :
  Still (p >>= k) Q
  := by
  refine ⟨fun s => ?_⟩
  obtain ⟨flawed, hfail | ⟨a, hok, ha⟩⟩ := hp.still s
  · obtain ⟨t, ht⟩ := exists_fail { s with flawed := flawed }
    rw [ht] at hfail
    rw [bind_error hfail, ← ht]
    exact ⟨flawed, .inl rfl⟩
  · rw [bind_ok hok]
    exact (hk a ha).still { s with flawed := flawed }

theorem Still.pure {a : α} {P : α → Prop} (h : P a) :
  Still (pure a) P
  := ⟨fun s => ⟨s.flawed, .inr ⟨a, rfl, h⟩⟩⟩

theorem Still.fail {P : α → Prop} :
  Still (Parser.fail : Parser α) P
  := ⟨fun s => ⟨s.flawed, .inl rfl⟩⟩

theorem Still.ite {c : Prop} [Decidable c] {P : α → Prop} (hp : Still p P) (hq : Still q P) :
  Still (if c then p else q) P
  := by
  split
  · exact hp
  · exact hq

/-- A flaw may be found first. -/
theorem Still.flawIf {b : Bool} {P : α → Prop} (hp : Still p P) :
  Still (do Parser.flawIf b; p) P
  := by
  refine ⟨fun s => ?_⟩
  cases b with
  | true => exact hp.still { s with flawed := true }
  | false => exact hp.still s

instance (as : List α) {k : α → Parser β} {R : α → β → Prop} [hk : ∀ a, Still (k a) (R a)] :
    Still (as.mapM k) (List.Forall₂ R as) := by
  induction as with
  | nil =>
      rw [List.mapM_nil]
      exact .pure .nil
  | cons a as ih =>
      rw [List.mapM_cons]
      exact (hk a).bind fun b hb => ih.bind fun bs hbs => .pure (.cons hb hbs)

/-- What reads nothing is known wherever it stands. -/
instance (priority := low) {P : α → Prop} [hp : Still p P] : Reading text p fun _ a _ => P a where
  reads _ _ s _ hsound hL _ := by
    obtain ⟨flawed, hfail | ⟨a, hok, ha⟩⟩ := hp.still s
    · obtain ⟨t, ht, h⟩ := (hsound.flawed flawed).fail hL
      rw [hfail, ht]
      exact h
    · rw [hok]
      exact ⟨hsound.flawed flawed, hL, Extent.le_refl _, fun _ _ => ha⟩

instance (a : α) : Reading text (pure a) fun _ x _ => x = a := ⟨fun _ _ => .pure fun _ _ => rfl⟩

instance : Reading text (Parser.fail : Parser α) fun _ _ _ => False := ⟨fun _ _ => .fail⟩

/-- Nothing is known of what is only asked for. -/
instance (priority := low) [hp : Quiet p] : Reading text p fun _ _ _ => True where
  reads _ _ s _ hsound hL _ := by
    obtain ⟨a, ha⟩ := hp.quiet s
    rw [ha]
    exact ⟨hsound, hL, Extent.le_refl _, fun _ _ => trivial⟩

/-- A parser whose answer is not looked at, before another. -/
instance {q : Parser β} {P : Nat → α → Extent → Prop} {Q : Nat → β → Extent → Prop}
    [Reading text p P] [Reading text q Q] : Reading text (p >>= fun _ => q) Q :=
  ⟨fun _ _ => .step fun _ => .last fun _ _ _ => id⟩

instance {P : Nat → α → Extent → Prop} [Reading text p P] :
    Reading text (p >>= fun a => pure (some a)) (OnSome P) :=
  ⟨fun _ _ => .step fun _ => .pure fun _ h => by simpa using h.2⟩

instance : Reading text Parser.advance fun L _ e => L ≤ e.stop := ⟨fun _ _ => .extend .advance⟩

instance (mark : String) : Reading text (Parser.expect mark) fun L _ e => L ≤ e.stop :=
  ⟨fun _ _ => .extend .expect⟩

instance (word : String) : Reading text (expectWord word) fun L _ e => L ≤ e.stop :=
  ⟨fun _ _ => .ask fun _ => .ite (fun _ => .last fun _ _ _ => id) fun _ => .fail⟩

instance (mark : String) : Reading text (eat mark) fun L b e => b = true → L ≤ e.stop :=
  ⟨fun _ _ => .ask fun _ => .ite (fun _ => .step fun _ => .pure fun _ h _ => h.2) fun _ =>
    .pure (by simp)⟩

instance (word : String) : Reading text (eatWord word) fun L b e => b = true → L ≤ e.stop :=
  ⟨fun _ _ => .ask fun _ => .ite (fun _ => .step fun _ => .pure fun _ h _ => h.2) fun _ =>
    .pure (by simp)⟩

instance (b : Bool) (mark : String) :
    Reading text (eatIf b mark) fun L b e => b = true → L ≤ e.stop :=
  ⟨fun _ _ => .ite (fun _ => .last fun _ _ _ => id) fun _ => .pure (by simp)⟩

instance (b : Bool) (word : String) :
    Reading text (eatWordIf b word) fun L b e => b = true → L ≤ e.stop :=
  ⟨fun _ _ => .ite (fun _ => .last fun _ _ _ => id) fun _ => .pure (by simp)⟩

instance (b : Bool) : Reading text (advanceIf b) fun L _ e => b = true → L ≤ e.stop :=
  ⟨fun _ _ => .ite (fun _ => .last fun _ _ _ h _ => h) fun h => .pure (by simp [h])⟩

instance : Reading text endBlock fun _ _ _ => True :=
  ⟨fun _ _ => .ask fun _ => .ite (fun _ => .last fun _ _ _ => id) fun _ =>
    .last fun _ _ _ _ => trivial⟩

instance : Reading text endStatement fun _ _ _ => True :=
  ⟨fun _ _ => .step fun _ => .ite (fun _ => .pure fun _ _ => trivial) fun _ =>
    .last fun _ _ _ _ => trivial⟩

instance : Reading text expectEnd fun _ _ _ => True :=
  ⟨fun _ _ => .step fun _ => .ite (fun _ => .pure fun _ _ => trivial) fun _ => .fail⟩

instance (b : Bool) {P Q : Nat → α → Extent → Prop} [Reading text p P] [Reading text q Q] :
    Reading text (choose b p q) fun L a e => b = true ∧ P L a e ∨ b = false ∧ Q L a e :=
  ⟨fun _ _ => .choose (fun hb => .last fun _ _ _ h => .inl ⟨hb, h⟩) fun hb =>
    .last fun _ _ _ h => .inr ⟨hb, h⟩⟩

instance (b : Bool) {P : Nat → α → Extent → Prop} [Reading text p P] [Reading text q P] :
    Reading text (choose b p q) P :=
  ⟨fun _ _ => .choose (fun _ => .same) fun _ => .same⟩

instance (b : Bool) {P : Nat → α → Extent → Prop} [Reading text p P] :
    Reading text (listIf b p) (OnAll P) :=
  ⟨fun _ _ => .choose (fun _ => .step fun _ => .pure fun _ h => by simpa using h.2) fun _ =>
    .pure (by simp)⟩

instance {p : Parser (Option α)} {P : Nat → α → Extent → Prop} [Reading text p (OnSome P)] :
    Reading text (attempt p) (OnSome P) :=
  ⟨fun _ _ => .attempt (.last fun _ _ _ => id)⟩

instance (b : Bool) {p : Parser (Option α)} {P : Nat → α → Extent → Prop}
    [Reading text p (OnSome P)] : Reading text (attemptIf b p) (OnSome P) :=
  ⟨fun _ _ => .attemptIf fun _ => .last fun _ _ _ => id⟩

instance {P : Nat → α → Extent → Prop} [Reading text p P] : Reading text (recover p) (OnSome P) :=
  ⟨fun _ _ => .recover (.last fun _ _ _ => id)⟩

theorem reads_collectUntil {done : Parser Bool} {P : Nat → α → Extent → Prop} [Quiet done]
    [Reading text p P] (fuel : Nat) :
  Reads text K L (collectUntil done p fuel) (OnAll P L)
  := by
  induction fuel generalizing K with
  | zero => exact .fail
  | succ fuel ih =>
      refine .ask fun b => .ite (fun _ => .pure (by simp)) fun _ => ?_
      refine .step fun a => .bind ih fun rest => .pure fun e h => ?_
      exact onAll_cons.mpr ⟨h.1.2, h.2⟩

instance {done : Parser Bool} {P : Nat → α → Extent → Prop} [Quiet done] [Reading text p P]
    (fuel : Nat) : Reading text (collectUntil done p fuel) (OnAll P) :=
  ⟨fun _ _ => reads_collectUntil fuel⟩

theorem reads_commaList {close : String} {P : Nat → α → Extent → Prop} [Reading text p P]
    (fuel : Nat) :
  Reads text K L (commaList close p fuel) (OnAll P L)
  := by
  induction fuel generalizing K with
  | zero => exact .fail
  | succ fuel ih =>
      refine .ask fun b => .ite (fun _ => .pure (by simp)) fun _ => ?_
      refine .step fun a => .ask fun b => .ite (fun _ => .pure fun e h => ?_) fun _ => ?_
      · simpa using h.2
      · refine .step fun _ => .bind ih fun rest => .pure fun e h => ?_
        exact onAll_cons.mpr ⟨h.1.1.2, h.2⟩

instance (close : String) {P : Nat → α → Extent → Prop} [Reading text p P] (fuel : Nat) :
    Reading text (commaList close p fuel) (OnAll P) :=
  ⟨fun _ _ => reads_commaList fuel⟩

/-! ### Leaves -/

/-- What is known from some offset on and so is known from each offset before it. -/
class Lowers (P : Nat → α → Extent → Prop) : Prop where
  lower : ∀ {L M a e}, P L a e → M ≤ L → P M a e

instance : Lowers (Fits text) := ⟨Fits.lower⟩
instance : Lowers (Spans text) := ⟨Spans.lower⟩
instance : Lowers (Sits text) := ⟨Sits.lower⟩
instance : Lowers (Binds text) := ⟨fun h hle => ⟨h.toFits.lower hle, h.plain⟩⟩
instance : Lowers (Decorates text) := ⟨fun h hle => ⟨h.toFits.lower hle, h.isDecorator⟩⟩
instance {P : Nat → α → Extent → Prop} [hP : Lowers P] : Lowers (OnAll P) :=
  ⟨fun h hle => h.imp fun _ ha => hP.lower ha hle⟩
instance {P : Nat → α → Extent → Prop} [hP : Lowers P] : Lowers (OnSome P) :=
  ⟨fun h hle => h.imp fun _ ha => hP.lower ha hle⟩

theorem ReadsWhen.lower {P : Nat → α → Extent → Prop} [hP : Lowers P]
    (hp : ReadsWhen text H f g K L p (P M)) {M' : Nat} (hle : M' ≤ M) :
  ReadsWhen text H f g K L p (P M')
  := hp.post fun _ _ _ h => hP.lower h hle

/-- A parser whose answer starts where it starts. -/
theorem ReadsWhen.start {k : Nat → Parser β} {P : Nat → β → Extent → Prop} [Lowers P]
    (hk : ∀ lo, Boundary text lo → ReadsWhen text H f g K lo (k lo) (P lo)) :
  ReadsWhen text H f g K L (Parser.here >>= k) (P L)
  := here fun lo hlo hle => (hk lo hlo).lower hle

instance (kind : Kind) [hkind : kind.Plain] : Reading text (leaf kind) (Binds text) :=
  ⟨fun _ _ => .start fun _ hlo => .step fun _ => .binds hlo hkind.isFrame_eq (by simp)⟩

instance (kind : String → Kind) [∀ word, (kind word).Plain] : Reading text (textLeaf kind) (Binds text) :=
  ⟨fun _ _ => .ask fun _ => .same⟩

instance (b : Bool) (word : String) : Reading text (wordIf b word) (OnSome (Fits text)) :=
  ⟨fun _ _ => .ask fun _ => .ite (fun _ => .step fun _ => .pure (by grind)) fun _ =>
    .pure (by simp)⟩

instance : Reading text anyWord (Binds text) where
  reads _ _ := by
    refine .ask fun t => ?_
    split
    · exact .last fun _ _ _ => id
    · exact .fail

instance (c : Context) : Reading text (name c) (Binds text) :=
  ⟨fun _ _ => .ask fun _ => .ite (fun _ => .last fun _ _ _ => id) fun _ => .fail⟩

instance (c : Context) : Reading text (boundName c) (Binds text) :=
  ⟨fun _ _ => .ask fun _ => .step fun _ => .ite (fun _ => .last fun _ _ _ h => h) fun _ => .fail⟩

instance (c : Context) : Reading text (declaredName c) (Binds text) :=
  ⟨fun _ _ => .ask fun _ => .ite (fun _ => .fail) fun _ => .last fun _ _ _ => id⟩

instance : Reading text privateName (Fits text) where
  reads _ _ := by
    refine .start fun lo hlo => .step fun _ => .ask fun t => ?_
    split
    · refine .ite (fun _ => .step fun _ => .node hlo rfl ?_) fun _ => .fail
      grind
    · exact .fail

end

end Parser

open Prune.Source.Parser

/-- What is known of the rules of the grammar. -/
class Rules.Reads (text : List Char) (r : Rules) : Prop where
  expression : ∀ c, Reading text (r.expression c) (Fits text)
  assignment : ∀ c, Reading text (r.assignment c) (Fits text)
  unary : ∀ c arrow, Reading text (r.unary c arrow) (Fits text)
  leftHand : ∀ c arrow, Reading text (r.leftHand c arrow) (Fits text)
  newCallee : ∀ c, Reading text (r.newCallee c) (Fits text)
  binding : ∀ c, Reading text (r.binding c) (Binds text)
  type : ∀ c, Reading text (r.type c) (Fits text)
  typeOperand : ∀ c, Reading text (r.typeOperand c) (Fits text)
  body : ∀ c, Reading text (r.body c) (Fits text)
  statement : ∀ c declares, Reading text (r.statement c declares) (Fits text)
  element : ∀ c place, Reading text (r.element c place) (Fits text)
  /-- An element is laid out whatever follows it. -/
  child : ∀ c place K L,
    ReadsWhen text (fun _ => True) State.extent State.past K L (r.element c place) (Spans text L)
  item : ∀ c, Reading text (r.item c) (Fits text)
  heritage : ∀ c, Reading text (r.heritage c) (Fits text)
  decorators : ∀ c, Reading text (r.decorators c) (OnAll (Decorates text))

attribute [instance] Rules.Reads.expression Rules.Reads.assignment Rules.Reads.unary
  Rules.Reads.leftHand Rules.Reads.newCallee Rules.Reads.binding Rules.Reads.type
  Rules.Reads.typeOperand Rules.Reads.body Rules.Reads.statement Rules.Reads.element
  Rules.Reads.item Rules.Reads.heritage Rules.Reads.decorators

end Prune.Source
