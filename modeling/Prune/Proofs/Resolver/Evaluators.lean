import Prune.Evaluator
import Prune.Proofs.Resolver.Discipline

/-!
# Evaluators with effects

An evaluator whose effects do not change its answers (`Evaluator.Notes`) makes a resolver do what it
does without them: in the end, the effects are those of the conditions asked for, one after another
(`Resolver.resolveBy_eq`).  So collecting the conditions without a value changes no range, and gives
just these conditions (`Resolver.resolveCollecting_faithful`).
-/

namespace Prune

variable {m : Type → Type} [Monad m]

/-! ### The effects of an evaluator -/

/-- Whether an evaluator takes a note of a condition, and then answers as a function does. -/
def Evaluator.Notes (evaluator : Evaluator m) (note : String → m Unit) (holds : String → Bool) :
    Prop :=
  ∀ condition, evaluator condition = do
    note condition
    return holds condition

namespace Condition

/-- Remembers a condition if it has no value. -/
def noteFailure (symbols : Symbols) (text : String) : StateM (List (String × Failure)) Unit :=
  modify fun noted => noted ++ failures symbols [text]

theorem notes_sandbox (symbols : Symbols) :
  (Evaluator.sandbox symbols).Notes (fun _ => pure ()) (holds symbols)
  := by
  intro condition
  rfl

theorem notes_collecting (symbols : Symbols) :
  (Evaluator.collecting symbols).Notes (noteFailure symbols) (holds symbols)
  := by
  intro condition
  rw [Evaluator.collecting, noteFailure, holds, failures]
  cases h : evaluate symbols condition with
  | ok v =>
      -- nothing is remembered
      simp only [List.filterMap_cons, List.filterMap_nil, h, List.append_nil]
      rfl
  | error cause => simp only [List.filterMap_cons, List.filterMap_nil, h]

theorem failures_append (symbols : Symbols) (texts more : List String) :
  failures symbols (texts ++ more) = failures symbols texts ++ failures symbols more
  := List.filterMap_append

theorem map_fst_failures (symbols : Symbols) (texts : List String) :
  (failures symbols texts).map Prod.fst
    = texts.filter fun text => !(evaluate symbols text).isOk
  := by
  induction texts with
  | nil => rfl
  | cons text texts ih =>
      rw [failures] at ih ⊢
      cases h : evaluate symbols text with
      | ok v => simp [h, ih, Except.isOk, Except.toBool]
      | error cause => simp [h, ih, Except.isOk, Except.toBool]

/-- The causes are those for which the conditions have no value. -/
theorem evaluate_of_mem_failures {symbols : Symbols} {texts : List String}
    {failure : String × Failure} (h : failure ∈ failures symbols texts) :
  evaluate symbols failure.1 = .error failure.2
  := by
  obtain ⟨text, -, htext⟩ := List.mem_filterMap.mp h
  cases hvalue : evaluate symbols text with
  | ok v => simp [hvalue] at htext
  | error cause =>
      rw [hvalue] at htext
      obtain rfl := Option.some.inj htext
      exact hvalue

/-- The conditions remembered are those without a value. -/
theorem run_noteFailure (symbols : Symbols) (texts : List String)
    (noted : List (String × Failure)) :
  (texts.forM (noteFailure symbols)).run noted = ((), noted ++ failures symbols texts)
  := by
  induction texts generalizing noted with
  | nil =>
      rw [failures, List.filterMap_nil, List.append_nil]
      rfl
  | cons text texts ih =>
      rw [← List.singleton_append (l := texts), failures_append, ← List.append_assoc]
      apply ih

end Condition

namespace Resolver

variable {r : Resolver} {evaluator : Evaluator m} {note : String → m Unit} {s t u : State}

/-- Whether a run from one state to another has the effects of the conditions that were asked for in
between, in their order, and no others. -/
def Replays (note : String → m Unit) (s t : State) (run : m State) : Prop :=
  ∃ conditions, t.asked = s.asked ++ conditions ∧ run = do
    conditions.forM note
    return t

variable [LawfulMonad m]

/-- A run that asks for nothing has no effects. -/
theorem replays_pure (h : t.asked = s.asked) :
  Replays note s t (pure t)
  := by
  use []
  simp [h]

theorem Replays.bind {run : m State} {next : State → m State} (hrun : Replays note s t run)
    (hnext : Replays note t u (next t)) :
  Replays note s u (run >>= next)
  := by
  obtain ⟨cs, hcs, rfl⟩ := hrun
  obtain ⟨ds, hds, hu⟩ := hnext
  use cs ++ ds
  constructor
  · rw [hds, hcs, List.append_assoc]
  · simp [hu]

/-! ### One step -/

variable (notes : evaluator.Notes note r.holds)

include notes

theorem askBy_eq (s : State) (expression : Option String) :
  askBy evaluator s expression = do
    note (expression.getD "")
    return r.ask s expression
  := by
  rw [askBy, notes]
  simp [ask]

theorem replays_openChainBy (s : State) (line : Nat) (expression : Option String) :
  Replays note s (r.openChain s line expression) (openChainBy evaluator s line expression)
  := by
  cases ho : s.outcome with
  | taken =>
      use [expression.getD ""]
      simp [openChainBy, openChain, ho, askBy_eq notes, ask]
  | dropped =>
      simp only [openChainBy, openChain, ho, pure_bind]
      apply replays_pure rfl
  | skipped =>
      simp only [openChainBy, openChain, ho, pure_bind]
      apply replays_pure rfl

/-- What becomes of the next branch of a chain is asked for unless a branch was taken or the branch
has no condition. -/
theorem exists_judgeBy_eq (s : State) (frame : Frame) (keyword : Keyword)
    (expression : Option String) :
  ∃ conditions outcome,
    (if frame.matched then (.dropped, s) else if keyword == .otherwise then (.taken, s)
      else r.ask s expression) = (outcome, { s with asked := s.asked ++ conditions }) ∧
    judgeBy evaluator s frame keyword expression = do
      conditions.forM note
      return (outcome, { s with asked := s.asked ++ conditions })
  := by
  unfold judgeBy
  split
  · use [], .dropped
    simp
  · split
    · use [], .taken
      simp
    · use [expression.getD ""], r.judge expression
      simp [askBy_eq notes, ask, judge]

/-- Putting a branch in the place of the open one has the effects of asking for it. -/
theorem replays_turn (h : t.asked = s.asked) (frame : Frame) (keyword : Keyword)
    (expression : Option String) (turn : Outcome → List Frame) :
  let judged :=
    if frame.matched then (.dropped, t) else if keyword == .otherwise then (.taken, t)
    else r.ask t expression
  Replays note s { judged.2 with stack := turn judged.1 } (do
    let judged ← judgeBy evaluator t frame keyword expression
    return { judged.2 with stack := turn judged.1 })
  := by
  intro judged
  obtain ⟨conditions, outcome, hjudged, hrun⟩ :=
    exists_judgeBy_eq notes t frame keyword expression
  have hjudged : judged = (outcome, { t with asked := t.asked ++ conditions }) := hjudged
  use conditions
  rw [hjudged, hrun]
  simp [h]

theorem replays_nextBranchBy (s : State) (keyword : Keyword) (line : Nat)
    (expression : Option String) :
  Replays note s (r.nextBranch s keyword line expression)
    (nextBranchBy evaluator s keyword line expression)
  := by
  cases hs : s.stack with
  | nil =>
      simp only [nextBranchBy, nextBranch, hs]
      apply replays_pure rfl
  | cons frame below =>
      simp only [nextBranchBy, nextBranch, hs]
      by_cases hk : (frame.keyword == .otherwise || frame.keyword == .closing) = true
      · simp only [hk, if_true]
        apply replays_pure rfl
      · simp only [hk]
        cases ho : frame.outcome with
        | skipped => apply replays_pure rfl
        | taken =>
            exact replays_turn (t := s) notes rfl frame keyword expression
              (fun next => frame.next keyword line next :: below)
        | dropped =>
            exact replays_turn (s := s) (t := s.emit frame.line line) notes rfl frame keyword
              expression (fun next => frame.next keyword line next :: below)

theorem replays_applyBy (s : State) (d : Directive) :
  Replays note s (r.apply s d) (applyBy r.switches evaluator s d)
  := by
  cases hd : d.kind with
  | branch keyword =>
      cases keyword with
      | opening =>
          simp only [apply, applyBy, hd]
          apply replays_openChainBy notes
      | elif =>
          simp only [apply, applyBy, hd]
          apply replays_nextBranchBy notes
      | otherwise =>
          simp only [apply, applyBy, hd]
          apply replays_nextBranchBy notes
      | closing =>
          simp only [apply, applyBy, hd]
          apply replays_pure
          unfold closeChain
          split
          · rfl
          · dsimp only
            split <;> rfl
  | switch name =>
      simp only [apply, applyBy, hd]
      apply replays_pure
      unfold applySwitch
      split <;> rfl

/-! ### Runs -/

/-- A run has the effects of the conditions that were asked for, in their order. -/
theorem replays_foldlM (s : State) (ds : List Directive) :
  Replays note s (r.run s ds) (ds.foldlM (applyBy r.switches evaluator) s)
  := by
  induction ds generalizing s with
  | nil => apply replays_pure rfl
  | cons d ds ih =>
      rw [List.foldlM_cons, run_cons]
      apply (replays_applyBy notes s d).bind (ih (r.apply s d))

/-- A resolver that asks an evaluator ends in the state of the resolver without effects, and its
effects are those of the conditions asked for. -/
theorem resolveBy_eq (ds : List Directive) :
  resolveBy r.switches evaluator ds = do
    (r.resolve ds).asked.forM note
    return r.resolve ds
  := by
  obtain ⟨conditions, hasked, hrun⟩ := replays_foldlM notes {} ds
  rw [resolveBy, hrun, resolve, hasked]
  rfl

omit notes

/-! ### Collecting the conditions without a value -/

@[simp]
theorem holds_resolver (o : Options) :
  o.resolver.holds = Condition.holds o.symbols
  := by
  rw [Options.resolver]

theorem resolveCollecting_eq (o : Options) (ds : List Directive) :
  o.resolveCollecting ds
    = (o.resolver.resolve ds, Condition.failures o.symbols (o.resolver.resolve ds).asked)
  := by
  have hnotes := Condition.notes_collecting o.symbols
  rw [← holds_resolver] at hnotes
  have hrun : resolveBy o.switches (.collecting o.symbols) ds = _ := resolveBy_eq hnotes ds
  rw [Options.resolveCollecting, hrun, StateT.run_bind, Condition.run_noteFailure]
  rfl

theorem resolvePlain_eq (o : Options) (ds : List Directive) :
  o.resolvePlain ds = o.resolver.resolve ds
  := by
  have hnotes := Condition.notes_sandbox o.symbols
  rw [← holds_resolver] at hnotes
  exact resolveBy_eq hnotes ds

/-- A branch with a condition that does not hold is not kept. -/
theorem exists_stack_of_turns {below : List Frame} {d : Directive} (turns : Turns s d below)
    (hd : d.kind = .branch .opening ∨ d.kind = .branch .elif)
    (hfalse : r.holds (d.expression.getD "") = false) :
  ∃ frame, (r.apply s d).stack = frame :: below ∧ frame.line = d.line ∧ frame.outcome ≠ .taken
  := by
  have hjudge : r.judge d.expression = .dropped := by
    rw [judge, hfalse]
    rfl
  cases turns with
  | opens hopening hs =>
      by_cases live : s.outcome = .taken
      · rw [apply_eq_of_step (.opened hopening live), ← hs]
        refine ⟨_, rfl, rfl, ?_⟩
        simp [firstFrame, hjudge]
      · rw [apply_eq_of_step (.skipped hopening live), ← hs]
        refine ⟨_, rfl, rfl, ?_⟩
        simp [skippedFrame]
  | @moves keyword frame hbranch hk hs movable =>
      cases matched : frame.matched with
      | true =>
          rw [apply_eq_of_step (.passed hbranch hk hs movable matched)]
          refine ⟨_, rfl, rfl, ?_⟩
          simp [Frame.next]
      | false =>
          have helif : d.kind = .branch .elif := by
            rcases hd with hd | hd
            · rw [hbranch] at hd
              cases hd
              simp at hk
            · exact hd
          rw [apply_eq_of_step (.tested helif hs movable matched)]
          refine ⟨_, rfl, rfl, ?_⟩
          simp [Frame.next, hjudge]

/-- Whatever directives are read, a resolver that collects the conditions without a value emits the
ranges of one whose evaluator has no effects.  What it collects are the conditions asked for that
have no value, in their order and as often as they were asked for, each with the cause; and a branch
whose condition is among them is not kept. -/
theorem resolveCollecting_faithful (o : Options) (ds : List Directive) :
  (o.resolveCollecting ds).1.ranges = (o.resolvePlain ds).ranges ∧
  (o.resolveCollecting ds).2.map Prod.fst
    = (o.resolvePlain ds).asked.filter (fun text => !(Condition.evaluate o.symbols text).isOk) ∧
  (∀ failure ∈ (o.resolveCollecting ds).2,
    Condition.evaluate o.symbols failure.1 = .error failure.2) ∧
  ∀ pre d post below, ds = pre ++ d :: post → Turns (o.resolveCollecting pre).1 d below →
    d.kind = .branch .opening ∨ d.kind = .branch .elif →
    d.expression.getD "" ∈ (o.resolveCollecting ds).2.map Prod.fst →
    ∃ frame, (o.resolveCollecting (pre ++ [d])).1.stack = frame :: below ∧ frame.line = d.line ∧
      frame.outcome ≠ .taken
  := by
  refine ⟨?_, ?_, ?_, ?_⟩
  · rw [resolveCollecting_eq, resolvePlain_eq]
  · rw [resolveCollecting_eq, resolvePlain_eq, Condition.map_fst_failures]
  · intro failure hmem
    rw [resolveCollecting_eq] at hmem
    dsimp only at hmem
    apply Condition.evaluate_of_mem_failures hmem
  · intro pre d post below _ turns hd hfailed
    rw [resolveCollecting_eq] at turns hfailed
    dsimp only at turns hfailed
    rw [resolveCollecting_eq, resolve_concat]
    apply exists_stack_of_turns turns hd
    obtain ⟨failure, hmem, heq⟩ := List.mem_map.mp hfailed
    have hvalue := Condition.evaluate_of_mem_failures hmem
    rw [heq] at hvalue
    rw [holds_resolver, Condition.holds, hvalue]

/-- In the chain of `x` and `true`, where `x` is unknown, the branch of `x` is not kept, and `x` is
what is collected. -/
theorem resolveCollecting_unknown :
  let x : Directive := { kind := .branch .opening, expression := some "x", line := 1 }
  let rest : List Directive :=
    [{ kind := .branch .elif, expression := some "true", line := 3 },
      { kind := .branch .closing, expression := none, line := 5 }]
  (Options.resolveCollecting {} (x :: rest)).2.map Prod.fst = ["x"] ∧
    ∃ frame, (Options.resolveCollecting {} [x]).1.stack = [frame] ∧ frame.line = 1 ∧
      frame.outcome ≠ .taken
  := by
  intro x rest
  have hfailed : (Options.resolveCollecting {} (x :: rest)).2.map Prod.fst = ["x"] := by
    decide +kernel
  have hmem : "x" ∈ (Options.resolveCollecting {} (x :: rest)).2.map Prod.fst := by
    rw [hfailed]
    apply List.mem_singleton_self
  obtain ⟨-, -, -, hbranch⟩ := resolveCollecting_faithful {} (x :: rest)
  have hstack := hbranch [] x rest [] rfl (.opens rfl rfl) (.inl rfl) hmem
  rw [List.nil_append] at hstack
  exact ⟨hfailed, hstack⟩

/-- What processing a source text gives of its conditions is what is collected. -/
theorem processParsed_eq_resolveCollecting (text : String) (parsed : Source.Parsed) (o : Options) :
  let p := processParsed text parsed o
  p.ranges = (o.resolveCollecting p.directives).1.ranges ∧
    p.failures = (o.resolveCollecting p.directives).2
  := by
  intro p
  rw [resolveCollecting_eq]
  constructor
  · rfl
  · rfl

end Resolver

end Prune
