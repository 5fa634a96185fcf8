import Prune.Proofs.Source.Reading
import Prune.Proofs.Source.Scripts

/-!
# Parsers that succeeded

What is known of a parser that has succeeded: what came before and behind each of its parts
(`Parser.bind_eq_ok`), and how far it has read.  There is one lemma for each way in which a parser
that is no rule of the grammar can succeed (`Parser.expect_eq_ok`, `Parser.commaList_eq_ok`).
`Gives P p` says that all that a parser gives satisfies `P`, wherever it starts.
-/

namespace Prune.Source.Parser

variable {α β : Type} {p : Parser α} {s t : State}

theorem bind_eq_ok {k : α → Parser β} {b : β} :
  (p >>= k) s = .ok b t ↔ ∃ a u, p s = .ok a u ∧ k a u = .ok b t
  := by
  cases hp : p s with
  | ok a u => simp [bind_ok hp]
  | error _ u => simp [bind_error hp]

theorem fail_ne_ok {a : α} :
  (Parser.fail : Parser α) s ≠ .ok a t
  := by
  obtain ⟨u, hu⟩ := exists_fail s
  rw [hu]
  exact nofun

theorem eq_of_quiet [hp : Quiet p] {a : α} (h : p s = .ok a t) :
  t = s
  := by
  obtain ⟨b, hb⟩ := hp.quiet s
  rw [hb] at h
  obtain ⟨⟩ := h
  rfl

/-! ### What comes next -/

theorem here_bind {k : Nat → Parser β} :
  (here >>= k) s = k s.tok.span.lo s
  := rfl

theorem peek_bind {k : Token → Parser β} :
  (peek >>= k) s = k s.tok s
  := rfl

theorem at_bind {mark : String} {k : Bool → Parser β} :
  (at? mark >>= k) s = k (s.tok.isPunct mark) s
  := rfl

theorem atAny_bind {marks : List String} {k : Bool → Parser β} :
  (atAny? marks >>= k) s = k (s.tok.isAnyPunct marks) s
  := rfl

theorem atWord_bind {word : String} {k : Bool → Parser β} :
  (atWord? word >>= k) s = k (s.tok.isWord word) s
  := rfl

/-! ### What parsers give -/

/-- Whether all that a parser gives satisfies `P`. -/
def Gives (P : α → Prop) (p : Parser α) : Prop :=
  ∀ s a t, p s = .ok a t → P a

theorem Gives.bind {k : α → Parser β} {P : α → Prop} {Q : β → Prop} (hp : Gives P p)
    (hk : ∀ a, P a → Gives Q (k a)) :
  Gives Q (p >>= k)
  := by
  intro s b t h
  obtain ⟨a, u, ha, hb⟩ := bind_eq_ok.mp h
  exact hk a (hp s a u ha) u b t hb

/-- What the last of two parsers gives. -/
theorem Gives.last {k : α → Parser β} {Q : β → Prop} (hk : ∀ a, Gives Q (k a)) :
  Gives Q (p >>= k)
  := Gives.bind (P := fun _ => True) (fun _ _ _ _ => trivial) fun a _ => hk a

theorem Gives.pure {a : α} {P : α → Prop} (h : P a) :
  Gives P (Pure.pure a)
  := by
  rintro s _ t ⟨⟩
  exact h

theorem Gives.fail {P : α → Prop} :
  Gives P (Parser.fail : Parser α)
  := by
  intro s a t h
  exact absurd h fail_ne_ok

theorem Gives.ite {c : Prop} [Decidable c] {P : α → Prop} {p q : Parser α} (hp : Gives P p)
    (hq : Gives P q) :
  Gives P (if c then p else q)
  := by
  split
  · exact hp
  · exact hq

theorem Gives.kind {kind : Kind} {lo : Nat} {parts : List Tree} :
  Gives (fun e => e.kind? = some kind) (Parser.node kind lo parts)
  := by
  rintro s _ t ⟨⟩
  rfl

/-! ### The ways to succeed -/

theorem advance_of_ne_bad (h : s.tok.kind ≠ .bad) :
  advance s = .ok () (s.after s.tok)
  := by
  obtain ⟨_, _, hok, rfl⟩ := (yields_advance (q := fun _ t => t = s.after s.tok) h).mpr rfl
  exact hok

theorem expect_eq_ok {mark : String} :
  expect mark s = .ok () t ↔ s.tok.isPunct mark = true ∧ t = s.after s.tok
  := by
  by_cases hmark : s.tok.isPunct mark = true
  · obtain ⟨_, _, hok, rfl⟩ :=
      (yields_expect (q := fun _ v => v = s.after s.tok) hmark).mpr rfl
    rw [hok]
    simp [hmark, eq_comm]
  · rw [expect, at_bind, if_neg hmark]
    constructor
    · intro h
      exact absurd h fail_ne_ok
    · intro h
      exact absurd h.1 hmark

theorem eat_eq_ok {mark : String} {b : Bool} :
  eat mark s = .ok b t ↔ b = s.tok.isPunct mark ∧ t = if b then s.after s.tok else s
  := by
  have hread : Yields (eat mark) s fun b v =>
      b = s.tok.isPunct mark ∧ v = if b then s.after s.tok else s := by
    by_cases hmark : s.tok.isPunct mark = true
    · simp [hmark]
    · simp [hmark]
  obtain ⟨b', v, hok, rfl, rfl⟩ := hread
  rw [hok]
  constructor
  · rintro ⟨⟩
    exact ⟨rfl, rfl⟩
  · rintro ⟨rfl, rfl⟩
    rfl

theorem commaList_eq_ok {close : String} {item : Parser α} {n : Nat} {as : List α} :
  commaList close item (n + 1) s = .ok as t ↔
    (s.tok.isPunct close = true ∧ as = [] ∧ t = s) ∨
    (s.tok.isPunct close = false ∧ ∃ a as' u, as = a :: as' ∧ item s = .ok a u ∧
      ((u.tok.isPunct close = true ∧ as' = [] ∧ t = u) ∨
        (u.tok.isPunct close = false ∧ u.tok.isPunct "," = true ∧
          commaList close item n (u.after u.tok) = .ok as' t)))
  := by
  rw [commaList, at_bind]
  by_cases hclose : s.tok.isPunct close = true
  · rw [if_pos hclose]
    constructor
    · rintro ⟨⟩
      exact .inl ⟨hclose, rfl, rfl⟩
    · rintro (⟨-, rfl, rfl⟩ | ⟨hopen, -⟩)
      · rfl
      · rw [hclose] at hopen
        contradiction
  · rw [if_neg hclose, bind_eq_ok]
    rw [Bool.not_eq_true] at hclose
    constructor
    · rintro ⟨a, u, hitem, hrest⟩
      rw [at_bind] at hrest
      refine .inr ⟨hclose, a, ?_⟩
      split at hrest
      · next hend =>
        obtain ⟨⟩ := hrest
        exact ⟨[], t, rfl, hitem, .inl ⟨hend, rfl, rfl⟩⟩
      · next hopen =>
        obtain ⟨_, v, hcomma, hrest⟩ := bind_eq_ok.mp hrest
        obtain ⟨hmark, rfl⟩ := expect_eq_ok.mp hcomma
        obtain ⟨as', w, hlist, hrest⟩ := bind_eq_ok.mp hrest
        obtain ⟨⟩ := hrest
        exact ⟨as', u, rfl, hitem, .inr ⟨Bool.not_eq_true _ ▸ hopen, hmark, hlist⟩⟩
    · rintro (⟨hend, -⟩ | ⟨-, a, as', u, rfl, hitem, hrest⟩)
      · rw [hclose] at hend
        contradiction
      · refine ⟨a, u, hitem, ?_⟩
        rw [at_bind]
        obtain ⟨hend, rfl, rfl⟩ | ⟨hopen, hcomma, hlist⟩ := hrest
        · rw [if_pos hend]
          rfl
        · rw [hopen, if_neg Bool.false_ne_true, bind_ok (expect_eq_ok.mpr ⟨hcomma, rfl⟩),
            bind_ok hlist]
          rfl

theorem eq_of_commaList_nil {close : String} {item : Parser α} {n : Nat}
    (h : commaList close item n s = .ok [] t) :
  t = s
  := by
  cases n with
  | zero => exact absurd h fail_ne_ok
  | succ n =>
      obtain ⟨-, -, rfl⟩ | ⟨-, _, _, _, hnil, -⟩ := commaList_eq_ok.mp h
      · rfl
      · contradiction

theorem collectUntil_eq_ok {done : Parser Bool} {item : Parser α} {n : Nat} {as : List α} {b : Bool}
    (hdone : done s = .ok b s) :
  collectUntil done item (n + 1) s = .ok as t ↔
    (b = true ∧ as = [] ∧ t = s) ∨
    (b = false ∧ ∃ a as' u, as = a :: as' ∧ item s = .ok a u ∧
      collectUntil done item n u = .ok as' t)
  := by
  rw [collectUntil, bind_ok hdone]
  cases b with
  | true =>
      constructor
      · rintro ⟨⟩
        exact .inl ⟨rfl, rfl, rfl⟩
      · rintro (⟨-, rfl, rfl⟩ | ⟨hfalse, -⟩)
        · rfl
        · contradiction
  | false =>
      rw [if_neg Bool.false_ne_true, bind_eq_ok]
      constructor
      · rintro ⟨a, u, hitem, hrest⟩
        obtain ⟨as', v, hlist, hrest⟩ := bind_eq_ok.mp hrest
        obtain ⟨⟩ := hrest
        exact .inr ⟨rfl, a, as', u, rfl, hitem, hlist⟩
      · rintro (⟨htrue, -⟩ | ⟨-, a, as', u, rfl, hitem, hlist⟩)
        · contradiction
        · refine ⟨a, u, hitem, ?_⟩
          rw [bind_ok hlist]
          rfl

theorem done_of_collectUntil_nil {done : Parser Bool} [hd : Quiet done] {item : Parser α} {n : Nat}
    (h : collectUntil done item n s = .ok [] t) :
  done s = .ok true s ∧ t = s
  := by
  cases n with
  | zero => exact absurd h fail_ne_ok
  | succ n =>
      obtain ⟨b, hdone⟩ := hd.quiet s
      obtain ⟨rfl, -, rfl⟩ | ⟨-, _, _, _, hnil, -⟩ := (collectUntil_eq_ok hdone).mp h
      · exact ⟨hdone, rfl⟩
      · contradiction

theorem failIf_eq_ok {b : Bool} :
  failIf b s = .ok () t ↔ b = false ∧ t = s
  := by
  cases b with
  | true =>
      constructor
      · intro h
        exact absurd h fail_ne_ok
      · simp
  | false =>
      constructor
      · rintro ⟨⟩
        exact ⟨rfl, rfl⟩
      · rintro ⟨-, rfl⟩
        rfl

theorem flawIf_eq_ok {b : Bool} (ht : t.flawed = false) :
  flawIf b s = .ok () t ↔ b = false ∧ t = s
  := by
  cases b with
  | true =>
      constructor
      · rintro ⟨⟩
        contradiction
      · simp
  | false =>
      constructor
      · rintro ⟨⟩
        exact ⟨rfl, rfl⟩
      · rintro ⟨-, rfl⟩
        rfl

theorem endStatement_eq_ok (h : endStatement s = .ok true t) :
  (s.tok.isPunct ";" = true ∧ t = s.after s.tok) ∨ t = s
  := by
  obtain ⟨b, u, heat, hend⟩ := bind_eq_ok.mp h
  obtain ⟨hb, rfl⟩ := eat_eq_ok.mp heat
  cases b with
  | true =>
      obtain ⟨⟩ := hend
      exact .inl ⟨hb.symm, rfl⟩
  | false => exact .inr (eq_of_quiet (p := canEnd?) hend)

theorem flawed_of_endStatement (h : endStatement s = .ok true t) (ht : t.flawed = false) :
  s.flawed = false
  := by
  obtain ⟨-, rfl⟩ | rfl := endStatement_eq_ok h
  · exact (Bool.or_eq_false_iff.mp ht).1
  · exact ht

end Prune.Source.Parser
