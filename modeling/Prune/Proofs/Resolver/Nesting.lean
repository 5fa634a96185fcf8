import Prune.Proofs.Resolver.Steps

/-!
# Well nested directives

A block (`Block`) is a list of directives in which every chain is closed and stands inside one
branch of the chain around it; `Block.directives` spells it out.  `Block.meaning` says by recursion
on the block what is emitted and asked for where the code is kept: of a chain the first branch whose
condition holds is kept, or the last one if none does and it has no condition, and all the others
are dropped.

The resolver does what the meaning says, and leaves the chains that are open before a block as they
are.  Where the code is not kept a block changes nothing (`run_block_of_not_taken`); where it is
kept, blocks and the rests of chains are followed together (`Block.Sound`, `Tail.Sound`).
-/

namespace Prune.Resolver

mutual

/-- Switches and chains, one after another.  All directives may come with an expression. -/
inductive Block where
  | empty
  | switch (name : String) (note : Option String) (line : Nat) (rest : Block)
  /-- A chain, by its first branch and what follows it. -/
  | chain (condition : Option String) (line : Nat) (body : Block) (tail : Tail) (rest : Block)

/-- What follows a branch with a condition, up to the end of its chain. -/
inductive Tail where
  | elif (condition : Option String) (line : Nat) (body : Block) (tail : Tail)
  | otherwise (note : Option String) (line : Nat) (body : Block) (lastNote : Option String)
      (lastLine : Nat)
  | closing (note : Option String) (line : Nat)

end

mutual

/-- The directives of a block. -/
def Block.directives : Block → List Directive
  | .empty => []
  | .switch name note line rest => ⟨.switch name, note, line⟩ :: rest.directives
  | .chain condition line body tail rest =>
    ⟨.branch .opening, condition, line⟩ :: (body.directives ++ (tail.directives ++ rest.directives))

/-- The directives that follow a branch. -/
def Tail.directives : Tail → List Directive
  | .elif condition line body tail =>
    ⟨.branch .elif, condition, line⟩ :: (body.directives ++ tail.directives)
  | .otherwise note line body lastNote lastLine =>
    ⟨.branch .otherwise, note, line⟩ ::
      (body.directives ++ [⟨.branch .closing, lastNote, lastLine⟩])
  | .closing note line => [⟨.branch .closing, note, line⟩]

end

/-- The line of the directive that ends the branch before. -/
def Tail.line : Tail → Nat
  | .elif _ line _ _ => line
  | .otherwise _ line _ _ _ => line
  | .closing _ line => line

/-- What follows the branch that is kept: all further branches are dropped, and nothing is asked
for. -/
def Tail.afterKept : Tail → Effect
  | .elif _ line _ tail => .drop line tail.line ++ tail.afterKept
  | .otherwise _ line _ _ lastLine => .drop line lastLine
  | .closing _ _ => .none

variable (r : Resolver)

/-- A condition is asked for and decides between two effects. -/
def choose (condition : Option String) (yes no : Effect) : Effect :=
  .ask condition ++ if r.holds (condition.getD "") then yes else no

mutual

/-- What a block means where the code is kept. -/
def Block.meaning : Block → Effect
  | .empty => .none
  | .switch name _ line rest =>
    (if r.switches.flag? name = some false then .drop line (line + 1) else .none) ++ rest.meaning
  | .chain condition line body tail rest =>
    r.choose condition (body.meaning ++ tail.afterKept) (.drop line tail.line ++ tail.meaning)
      ++ rest.meaning

/-- What follows the branches of a chain when none of them is kept. -/
def Tail.meaning : Tail → Effect
  | .elif condition line body tail =>
    r.choose condition (body.meaning ++ tail.afterKept) (.drop line tail.line ++ tail.meaning)
  | .otherwise _ _ body _ _ => body.meaning
  | .closing _ _ => .none

end

variable {r}

/-! ### Where the code is not kept -/

mutual

/-- A block changes nothing where the code is not kept. -/
theorem run_block_of_not_taken (b : Block) {s : State} (dead : s.outcome ≠ .taken) :
  r.run s b.directives = s
  := by
  cases b with
  | empty => rfl
  | switch name note line rest =>
      simp only [Block.directives, run_cons]
      rw [apply_eq_of_step (.unswitched rfl (.inl dead))]
      apply run_block_of_not_taken rest dead
  | chain condition line body tail rest =>
      simp only [Block.directives, run_cons, run_append]
      rw [apply_eq_of_step (.skipped rfl dead)]
      rw [run_block_of_not_taken body (by simp [State.outcome, skippedFrame])]
      rw [run_tail_of_skipped tail rfl rfl]
      apply run_block_of_not_taken rest dead

/-- The rest of a chain that is skipped only closes the chain. -/
theorem run_tail_of_skipped (t : Tail) {s : State} {frame : Frame} {below : List Frame}
    (hs : s.stack = frame :: below) (skipped : frame.outcome = .skipped) :
  r.run s t.directives = { s with stack := below }
  := by
  have dead : s.outcome ≠ .taken := by
    simp [State.outcome_cons hs, skipped]
  have stuck : ¬ frame.Movable := by
    intro movable
    apply movable.2 skipped
  cases t with
  | elif condition line body tail =>
      simp only [Tail.directives, run_cons, run_append]
      rw [apply_of_not_movable rfl (.inl rfl) hs stuck]
      rw [run_block_of_not_taken body dead]
      apply run_tail_of_skipped tail hs skipped
  | otherwise note line body lastNote lastLine =>
      simp only [Tail.directives, run_cons, run_append, run_nil]
      rw [apply_of_not_movable rfl (.inr rfl) hs stuck]
      rw [run_block_of_not_taken body dead]
      rw [apply_eq_of_step (.closed rfl hs)]
      simp [Frame.leave, skipped]
  | closing note line =>
      simp only [Tail.directives, run_cons, run_nil]
      rw [apply_eq_of_step (.closed rfl hs)]
      simp [Frame.leave, skipped]

end

/-! ### Where the code is kept -/

variable (r) in
/-- Where the code is kept, the resolver does what a block means. -/
def Block.Sound (b : Block) : Prop :=
  ∀ ⦃s : State⦄, s.outcome = .taken → r.run s b.directives = s.add (b.meaning r)

variable (r) in
/-- In a chain that is not skipped, the resolver leaves the open branch, does what the rest of the
chain means and closes the chain. -/
def Tail.Sound (t : Tail) : Prop :=
  ∀ ⦃s : State⦄ ⦃frame : Frame⦄ ⦃below : List Frame⦄, s.stack = frame :: below → frame.Movable →
    (frame.outcome = .taken → frame.matched = true) →
    r.run s t.directives = { s with stack := below }.add
      (frame.leave t.line ++ if frame.matched then t.afterKept else t.meaning r)

/-- A branch whose condition was just asked for, with the rest of its chain. -/
theorem run_branch {body : Block} {tail : Tail} (hbody : body.Sound r) (htail : tail.Sound r)
    {s : State} {frame : Frame} {below : List Frame} {condition : Option String}
    (hs : s.stack = frame :: below)
    (hk : frame.keyword = .opening ∨ frame.keyword = .elif)
    (ho : frame.outcome = r.judge condition)
    (hm : frame.matched = (r.judge condition == .taken)) :
  r.run s (body.directives ++ tail.directives) = { s with stack := below }.add
    (if r.holds (condition.getD "") then body.meaning r ++ tail.afterKept
      else Effect.drop frame.line tail.line ++ tail.meaning r)
  := by
  rw [run_append]
  cases h : r.holds (condition.getD "") with
  | true =>
      have taken : r.judge condition = .taken := by
        simp [judge, Outcome.ofBool, h]
      rw [taken] at ho hm
      rw [hbody (by rw [State.outcome_cons hs, ho])]
      rw [htail (by rw [State.add_stack, hs]) ⟨hk, by simp [ho]⟩ (by simp [hm])]
      simp [Frame.leave, ho, hm, State.add, Effect.append_def, Effect.none]
  | false =>
      have dropped : r.judge condition = .dropped := by
        simp [judge, Outcome.ofBool, h]
      rw [dropped] at ho hm
      rw [run_block_of_not_taken body (by simp [State.outcome_cons hs, ho])]
      rw [htail hs ⟨hk, by simp [ho]⟩ (by simp [ho])]
      simp [Frame.leave, ho, hm]

mutual

theorem Block.sound (b : Block) :
  b.Sound r
  := by
  intro s live
  cases b with
  | empty => simp [Block.directives, Block.meaning]
  | switch name note line rest =>
      simp only [Block.directives, Block.meaning, run_cons]
      by_cases off : r.switches.flag? name = some false
      · rw [apply_eq_of_step (.switched rfl live off)]
        rw [Block.sound rest (by rw [State.add_outcome, live]), State.add_add, if_pos off]
      · rw [apply_eq_of_step (.unswitched rfl (.inr off))]
        rw [Block.sound rest live, if_neg off, Effect.none_append]
  | chain condition line body tail rest =>
      simp only [Block.directives, Block.meaning, run_cons]
      rw [← List.append_assoc, run_append]
      rw [apply_eq_of_step (.opened rfl live)]
      rw [run_branch (Block.sound body) (Tail.sound tail) rfl (.inl rfl) rfl rfl]
      rw [Block.sound rest (by rw [State.add_outcome]; exact live)]
      simp [choose, firstFrame, State.add, Effect.append_def]

theorem Tail.sound (t : Tail) :
  t.Sound r
  := by
  intro s frame below hs movable consistent
  cases t with
  | elif condition line body tail =>
      simp only [Tail.directives, run_cons]
      cases matched : frame.matched with
      | true =>
          rw [apply_eq_of_step (.passed rfl (.inl rfl) hs movable matched)]
          rw [run_append, run_block_of_not_taken body (by simp [State.outcome, Frame.next])]
          rw [Tail.sound tail rfl ⟨.inr rfl, by simp [Frame.next]⟩ (by simp [Frame.next])]
          simp [Frame.leave, Frame.next, matched, Tail.line, Tail.afterKept, State.add,
            Effect.append_def]
      | false =>
          rw [apply_eq_of_step (.tested rfl hs movable matched)]
          rw [run_branch (Block.sound body) (Tail.sound tail) rfl (.inr rfl) rfl
            (by simp [Frame.next, matched])]
          simp [choose, Frame.next, Tail.line, Tail.meaning, State.add, Effect.append_def]
  | otherwise note line body lastNote lastLine =>
      simp only [Tail.directives, run_cons, run_append, run_nil]
      cases matched : frame.matched with
      | true =>
          rw [apply_eq_of_step (.passed rfl (.inr rfl) hs movable matched)]
          rw [run_block_of_not_taken body (by simp [State.outcome, Frame.next])]
          rw [apply_eq_of_step (.closed rfl rfl)]
          simp [Frame.leave, Frame.next, Tail.line, Tail.afterKept, State.add, Effect.append_def]
      | false =>
          rw [apply_eq_of_step (.defaulted rfl hs movable matched)]
          rw [Block.sound body (by rfl)]
          rw [apply_eq_of_step (.closed rfl rfl)]
          simp [Frame.leave, Frame.next, Tail.line, Tail.meaning, State.add, Effect.append_def,
            Effect.none]
  | closing note line =>
      simp only [Tail.directives, run_cons, run_nil]
      rw [apply_eq_of_step (.closed rfl hs)]
      simp [Tail.line, Tail.afterKept, Tail.meaning]

end

/-- The resolver does what a block means: from any state, the open chains stay as they are, and the
ranges and conditions of the meaning are added to those of the state.  Where the code is not kept
nothing is added. -/
theorem run_block (r : Resolver) (s : State) (b : Block) :
  r.run s b.directives =
    let meaning := if s.outcome = .taken then b.meaning r else .none
    { stack := s.stack
      ranges := s.ranges ++ meaning.ranges
      asked := s.asked ++ meaning.asked }
  := by
  by_cases live : s.outcome = .taken
  · rw [if_pos live]
    apply Block.sound b live
  · rw [if_neg live, run_block_of_not_taken b live]
    symm
    apply State.add_none

/-- A chain inside a branch that is dropped emits nothing of its own. -/
example :
  let inner : Block := .chain (some "true") 2 .empty (.closing none 3) .empty
  let outer : Block := .chain (some "false") 1 inner (.closing none 4) .empty
  let r : Resolver := { switches := [], holds := fun condition => condition == "true" }
  r.resolve outer.directives = { ranges := [⟨1, 4⟩], asked := ["false"] }
  := by
  decide

end Prune.Resolver
