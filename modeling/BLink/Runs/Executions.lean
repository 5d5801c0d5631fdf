import BLink.Runs.Invariant
import BLink.Runs.Schedule

/-! One call among the steps of all threads.
An execution of a call is the part of a run between its invocation and its return. The rule
of induction along it separates the sections of the call itself from everybody else's steps.
-/

namespace BLink

open Library

variable {ι K V : Type} [TotalOrd K]

/-- The thread that takes the step. -/
def Label.owner : Label ι K V → ι
  | .invoke θ _ => θ
  | .pass θ _ _ => θ
  | .respond θ _ _ => θ

/-- The step is a return of the thread. -/
def Label.Returns (θ : ι) : Label ι K V → Prop
  | .respond other _ _ => other = θ
  | _ => False

/-- A trace of the system. -/
abbrev Trace (ι K V : Type) [TotalOrd K] : Type :=
  List (Transition (System ι K V) (Label ι K V))

/-- The states that a run from `start` goes through. -/
def Visited (start : System ι K V) (trace : Trace ι K V) (state : System ι K V) : Prop :=
  state = start ∨ ∃ transition ∈ trace, transition.target = state

theorem Visited.append {start state : System ι K V} {front back : Trace ι K V}
    (visited : Visited start front state)
    : Visited start (front ++ back) state := by
  rcases visited with rfl | ⟨transition, member, rfl⟩
  · exact .inl rfl
  · exact .inr ⟨transition, List.mem_append_left _ member, rfl⟩

variable [DecidableEq ι]

/-- The last state of a run is visited. -/
theorem Visited.finish {N : PageCapacity} {start finish : System ι K V} {trace : Trace ι K V}
    (run : (System.transitions ι K V N).Run start trace finish)
    : Visited start trace finish := by
  cases run with
  | nil => exact .inl rfl
  | snoc _ _ => exact .inr ⟨_, List.mem_append_right _ (List.mem_singleton_self _), rfl⟩

/-- A call of thread `θ` from the state after its invocation to the state before its return
with the given response.
-/
structure Execution (N : PageCapacity) (θ : ι) (call : Call K V) (response : Response K V)
    (start : System ι K V) (trace : Trace ι K V) (finish : System ι K V)
    : Prop where
  invoked
    : ∃ before,
        (System.transitions ι K V N).Reachable before
        ∧ (System.transitions ι K V N).step before (.invoke θ call) start
  run : (System.transitions ι K V N).Run start trace finish
  unanswered : ∀ transition ∈ trace, ¬ transition.label.Returns θ
  done : (finish.thread θ).status = .running call (.done response)

variable {N : PageCapacity} {θ : ι} {call : Call K V} {response : Response K V}
  {start finish s s' : System ι K V} {trace : Trace ι K V}

/-- A step of another thread leaves a thread alone. -/
theorem thread_of_step {label : Label ι K V} (step : (System.transitions ι K V N).step s label s')
    (other : label.owner ≠ θ)
    : s'.thread θ = s.thread θ := by
  cases step with
  | invoke _ => exact System.setThread_other s _ (Ne.symm other)
  | respond _ => exact System.setThread_other s _ (Ne.symm other)
  | pass running unfinished weak =>
      unfold System.afterSection
      split <;> exact System.setThread_other s _ (Ne.symm other)

/-- A section changes its own thread as the call's cursor says. -/
theorem SectionStep.thread_eq {shape : Shape} {latched upgraded : Bool} {pc pc' : Pc K V}
    {t' : Tree K V} (step : SectionStep N s shape θ latched upgraded s' call pc t' pc')
    : s'.thread θ = (s.thread θ).resume call pc' := by
  rw [step.target]
  exact System.setThread_same ..

omit [DecidableEq ι] in
/-- After a section the call still runs. -/
theorem Thread.resume_status (thread : Thread K V) (call : Call K V) (pc : Pc K V)
    : ∃ pc', (thread.resume call pc).status = .running call pc' := by
  cases pc <;> exact ⟨_, rfl⟩

/-- What a section leaves its operation with still serves the call. -/
theorem SectionStep.serves {shape : Shape} {latched upgraded : Bool} {pc pc' : Pc K V} {t' : Tree K V}
    (step : SectionStep N s shape θ latched upgraded s' call pc t' pc') (ok : SystemOk N s shape)
    : ∀ served ∈ pc'.serves, served = call := by
  obtain ⟨_, _, outcomes⟩ := step.preserved ok
  obtain ⟨_, -, outcome⟩ := outcomes ok.inv.map ok.inv.represents
  intro served isServed
  exact (ok.thread θ).serves call pc step.running served (outcome.serves_of_mem served isServed)

/-- Unless the call is a cursor's, a section only moves the program counter. -/
theorem SectionStep.status_eq {shape : Shape} {latched upgraded : Bool} {pc pc' : Pc K V}
    {t' : Tree K V} (step : SectionStep N s shape θ latched upgraded s' call pc t' pc')
    (ok : SystemOk N s shape) (plain : ∀ cursor, call ≠ .next cursor)
    : (s'.thread θ).status = .running call pc' := by
  rw [step.thread_eq]
  cases pc' with
  | candidate cursor found => exact absurd (step.serves ok _ rfl).symm (plain cursor)
  | _ => rfl

omit [DecidableEq ι] in
theorem Pc.exists_serves {pc : Pc K V} (unfinished : pc.isFinal = false)
    : ∃ served, pc.serves = some served := by
  cases pc <;> first | exact ⟨_, rfl⟩ | cases unfinished

/-- A section serves the call that its thread runs. -/
theorem SectionStep.serves_eq {shape : Shape} {latched upgraded : Bool} {pc pc' : Pc K V}
    {t' : Tree K V} (step : SectionStep N s shape θ latched upgraded s' call pc t' pc')
    (ok : SystemOk N s shape)
    : pc.serves = some call := by
  obtain ⟨served, isServed⟩ := Pc.exists_serves step.unfinished
  rw [isServed, (ok.thread θ).serves call pc step.running served isServed]

namespace Execution

/-- How the call stands when it begins. -/
theorem begins (execution : Execution N θ call response start trace finish)
    : ∃ cursors : Nat → Cursor K,
        (∀ cursor, (cursors cursor).Ready)
        ∧ start.thread θ
          = {
              status := .running call (call.begin cursors).2
              cursors := (call.begin cursors).1
            } := by
  obtain ⟨before, reached, step⟩ := execution.invoked
  obtain ⟨shape, ok⟩ := reachable_ok reached
  cases step with
  | invoke idle =>
      refine ⟨(before.thread θ).cursors, fun cursor => ?_, System.setThread_same ..⟩
      refine (ok.thread θ).ready cursor (fun _ _ _ running => ?_)
      rw [idle] at running
      cases running

/-- Induction along a call that has not returned: what holds when it begins, is kept by its
own sections and is kept by the steps of other threads, holds as long as it runs.
-/
theorem induct_running {P : Trace ι K V → System ι K V → Pc K V → Prop}
    {before : System ι K V} (reached : (System.transitions ι K V N).Reachable before)
    (invoked : (System.transitions ι K V N).step before (.invoke θ call) start)
    (run : (System.transitions ι K V N).Run start trace finish)
    (unanswered : ∀ transition ∈ trace, ¬ transition.label.Returns θ)
    (begins : ∀ pc, (start.thread θ).status = .running call pc → P [] start pc)
    (own
      : ∀ trace s shape pc latched upgraded t' pc' pc'' s',
          (System.transitions ι K V N).Run start trace s → SystemOk N s shape
          → P trace s pc
          → SectionStep N s shape θ latched upgraded s' call pc t' pc'
          → (s'.thread θ).status = .running call pc''
          → P (trace ++ [⟨s, .pass θ latched upgraded, s'⟩]) s' pc'')
    (others
      : ∀ trace s pc label s',
          (System.transitions ι K V N).Run start trace s → P trace s pc
          → (s.thread θ).status = .running call pc → s'.thread θ = s.thread θ
          → label.owner ≠ θ → (System.transitions ι K V N).step s label s'
          → P (trace ++ [⟨s, label, s'⟩]) s' pc)
    : ∃ pc, (finish.thread θ).status = .running call pc ∧ P trace finish pc := by
  refine run.induct (I := fun trace s =>
    (∀ transition ∈ trace, ¬ transition.label.Returns θ)
    → ∃ pc, (s.thread θ).status = .running call pc ∧ P trace s pc) ?_ ?_ unanswered
  · intro _
    obtain ⟨pc, status⟩ : ∃ pc, (start.thread θ).status = .running call pc := by
      cases invoked with
      | invoke idle => exact ⟨_, congrArg Thread.status (System.setThread_same ..)⟩
    exact ⟨pc, status, begins pc status⟩
  · intro trace s label s' run holds step quiet
    obtain ⟨pc, running, good⟩ :=
      holds (fun transition member => quiet transition (List.mem_append_left _ member))
    by_cases mine : label.owner = θ
    · cases label with
      | invoke other call' =>
          obtain rfl : other = θ := mine
          cases step with
          | invoke idle => rw [idle] at running; cases running
      | respond other call' response' =>
          have last := quiet ⟨s, .respond other call' response', s'⟩
            (List.mem_append_right _ (List.mem_singleton_self _))
          exact absurd mine last
      | pass other latched upgraded =>
          obtain rfl : other = θ := mine
          obtain ⟨shape, ok⟩ := reachable_ok ((reached.step invoked).run run)
          obtain ⟨call', pc₁, t', pc', passed⟩ := ok.section_step step
          have same := passed.running
          rw [running] at same
          cases same
          obtain ⟨pc'', after⟩ := Thread.resume_status (s.thread other) call pc'
          rw [← passed.thread_eq] at after
          exact ⟨pc'', after, own _ _ _ _ _ _ _ _ _ _ run ok good passed after⟩
    · have same := thread_of_step step mine
      exact ⟨pc, by rw [same, running], others _ _ _ _ _ run good running same mine step⟩

/-- The same rule for a call that returns. -/
theorem induct {P : Trace ι K V → System ι K V → Pc K V → Prop}
    (execution : Execution N θ call response start trace finish)
    (begins : ∀ pc, (start.thread θ).status = .running call pc → P [] start pc)
    (own
      : ∀ trace s shape pc latched upgraded t' pc' pc'' s',
          (System.transitions ι K V N).Run start trace s → SystemOk N s shape
          → P trace s pc
          → SectionStep N s shape θ latched upgraded s' call pc t' pc'
          → (s'.thread θ).status = .running call pc''
          → P (trace ++ [⟨s, .pass θ latched upgraded, s'⟩]) s' pc'')
    (others
      : ∀ trace s pc label s',
          (System.transitions ι K V N).Run start trace s → P trace s pc
          → (s.thread θ).status = .running call pc → s'.thread θ = s.thread θ
          → label.owner ≠ θ → (System.transitions ι K V N).step s label s'
          → P (trace ++ [⟨s, label, s'⟩]) s' pc)
    : P trace finish (.done response) := by
  obtain ⟨before, reached, invoked⟩ := execution.invoked
  obtain ⟨pc, running, good⟩ :=
    induct_running reached invoked execution.run execution.unanswered begins own others
  rw [execution.done] at running
  cases running
  exact good

end Execution

/-- A call that runs at the end of a run was invoked in it, and has not returned since. -/
theorem exists_invocation (idle : (start.thread θ).status = .idle)
    (reached : (System.transitions ι K V N).Reachable start)
    (run : (System.transitions ι K V N).Run start trace finish) {pc : Pc K V}
    (running : (finish.thread θ).status = .running call pc)
    : ∃ earlier before begun during,
        trace = earlier ++ ⟨before, .invoke θ call, begun⟩ :: during
        ∧ (System.transitions ι K V N).Reachable before
        ∧ (System.transitions ι K V N).step before (.invoke θ call) begun
        ∧ (System.transitions ι K V N).Run begun during finish
        ∧ ∀ transition ∈ during, ¬ transition.label.Returns θ := by
  refine run.induct (I := fun trace s => ∀ pc, (s.thread θ).status = .running call pc →
    ∃ earlier before begun during,
      trace = earlier ++ ⟨before, .invoke θ call, begun⟩ :: during
      ∧ (System.transitions ι K V N).Reachable before
      ∧ (System.transitions ι K V N).step before (.invoke θ call) begun
      ∧ (System.transitions ι K V N).Run begun during s
      ∧ ∀ transition ∈ during, ¬ transition.label.Returns θ) ?_ ?_ pc running
  · intro pc running
    rw [idle] at running
    cases running
  · intro trace s label s' earlier invoked step pc running
    have extend {old : Pc K V} (before : (s.thread θ).status = .running call old)
        (quiet : ¬ label.Returns θ)
        : ∃ earlier before begun during,
            trace ++ [⟨s, label, s'⟩] = earlier ++ ⟨before, .invoke θ call, begun⟩ :: during
            ∧ (System.transitions ι K V N).Reachable before
            ∧ (System.transitions ι K V N).step before (.invoke θ call) begun
            ∧ (System.transitions ι K V N).Run begun during s'
            ∧ ∀ transition ∈ during, ¬ transition.label.Returns θ := by
      obtain ⟨front, source, begun, during, rfl, reachable, invocation, later, unanswered⟩ :=
        invoked old before
      refine ⟨front, source, begun, during ++ [⟨s, label, s'⟩], by simp, reachable, invocation,
        later.snoc step, ?_⟩
      intro transition member
      rcases List.mem_append.mp member with old | last
      · exact unanswered transition old
      · obtain rfl := List.mem_singleton.mp last
        exact quiet
    by_cases mine : label.owner = θ
    · cases label with
      | invoke other call' =>
          obtain rfl : other = θ := mine
          have invocation := step
          cases step with
          | invoke idle =>
              rw [System.setThread_same] at running
              cases running
              exact ⟨trace, s, _, [], rfl, reached.run earlier, invocation, .nil, nofun⟩
      | pass other latched upgraded =>
          obtain rfl : other = θ := mine
          obtain ⟨shape, ok⟩ := reachable_ok (reached.run earlier)
          obtain ⟨call', old, t', pc', passed⟩ := ok.section_step step
          obtain ⟨pc'', after⟩ := Thread.resume_status (s.thread other) call' pc'
          rw [passed.thread_eq, after] at running
          cases running
          exact extend passed.running id
      | respond other call' response =>
          obtain rfl : other = θ := mine
          cases step with
          | respond done =>
              rw [System.setThread_same] at running
              cases running
    · have same := thread_of_step step mine
      rw [same] at running
      refine extend running ?_
      cases label with
      | respond => exact mine
      | _ => exact id

-----------------------------------------------------------------------------------------
-- Replayed executions
-----------------------------------------------------------------------------------------

/-- Some page in use stores a record with the key. -/
def Tree.storesKey (t : Tree K V) (key : K) : Bool :=
  (List.range t.pages).any (fun p =>
    (t.forward p).isNone && (t.entries p).any (fun entry => compare entry.key.key key = .eq))

theorem Tree.exists_of_storesKey {t : Tree K V} {key : K} (stores : t.storesKey key = true)
    : t.StoresKey key := by
  obtain ⟨p, allocated, found⟩ := List.any_eq_true.mp stores
  rw [Bool.and_eq_true, List.any_eq_true] at found
  obtain ⟨active, entry, inside, equal⟩ := found
  exact ⟨entry, ⟨p, ⟨List.mem_range.mp allocated, by simpa using active⟩, inside⟩,
    by simpa using equal⟩

/-- Whether the instruction returns from a call of the thread. -/
def Move.returns (θ : ι) : Move ι K V → Bool
  | .respond other => other = θ
  | _ => false

/-- The response that a thread is about to return. -/
def System.answer (s : System ι K V) (θ : ι) : Option (Response K V) :=
  match (s.thread θ).status with
  | .running _ (.done response) => some response
  | _ => none

/-- Plays one schedule from the beginning, invokes a call, and plays another schedule. -/
def System.perform (N : PageCapacity) (threads : List ι) (before : List (Move ι K V)) (θ : ι)
    (call : Call K V) (during : List (Move ι K V))
    : Option (System ι K V × Trace ι K V × System ι K V) :=
  ((System.fresh : System ι K V).replay N threads before).bind (fun (_, s) =>
    (s.play N threads (.invoke θ call)).bind (fun (_, start) =>
      (start.replay N threads during).map (fun (trace, finish) => (start, trace, finish))))

/-- A replay without returns of a thread has no return of it. -/
theorem System.quiet_of_replay {threads : List ι} {moves : List (Move ι K V)}
    (replayed : s.replay N threads moves = some (trace, s'))
    (quiet : moves.all (fun move => !move.returns θ) = true)
    : ∀ transition ∈ trace, ¬ transition.label.Returns θ := by
  rintro ⟨source, label, target⟩ member
  obtain ⟨move, inMoves, played⟩ := TransitionSystem.exists_move_of_replay replayed member
  have silent := List.all_eq_true.mp quiet move inMoves
  cases move with
  | invoke other call =>
      cases status : (source.thread other).status <;> simp [play, status] at played
      obtain ⟨rfl, -⟩ := played
      exact id
  | pass other =>
      cases status : (source.thread other).status with
      | idle => simp [play, status] at played
      | running call pc =>
          cases final : pc.isFinal with
          | true => simp [play, status, final] at played
          | false =>
              simp only [play, status, final, Bool.false_eq_true, if_false,
                Option.map_eq_some_iff, Prod.mk.injEq] at played
              obtain ⟨_, _, rfl, -⟩ := played
              exact id
  | respond other =>
      cases status : (source.thread other).status with
      | idle => simp [play, status] at played
      | running call pc =>
          cases pc <;> simp [play, status] at played
          obtain ⟨rfl, -⟩ := played
          simpa [Move.returns, Label.Returns] using silent

/-- What is performed and answered is an execution. -/
theorem execution_of_perform {threads : List ι} (all : ∀ θ, θ ∈ threads)
    {before during : List (Move ι K V)}
    (performed : System.perform N threads before θ call during = some (start, trace, finish))
    (quiet : during.all (fun move => !move.returns θ) = true)
    (answered : finish.answer θ = some response)
    : Execution N θ call response start trace finish := by
  simp only [System.perform, Option.bind_eq_some_iff, Option.map_eq_some_iff, Prod.exists,
    Prod.mk.injEq] at performed
  obtain ⟨_, s, earlier, label, middle, played, _, _, later, rfl, rfl, rfl⟩ := performed
  have reached := System.reachable_of_replay all earlier
  have step : (System.transitions ι K V N).step s (.invoke θ call) middle := by
    have step := System.step_of_play all played
    cases status : (s.thread θ).status <;> simp [System.play, status] at played
    obtain ⟨rfl, -⟩ := played
    exact step
  have run := System.run_of_replay all later
  have unanswered := System.quiet_of_replay later quiet
  refine ⟨⟨s, reached, step⟩, run, unanswered, ?_⟩
  obtain ⟨pc, running, -⟩ := Execution.induct_running (P := fun _ _ _ => True) reached step run
    unanswered (fun _ _ => trivial) (by intros; trivial) (by intros; trivial)
  rw [System.answer, running] at answered
  cases pc with
  | done given =>
      obtain rfl : given = response := by simpa using answered
      exact running
  | _ => cases answered

end BLink
