import BLink.Latching.Deadlock
import BLink.Latching.Discipline

/-! Progress: only public guards can keep all threads from going on.
A thread in the middle of a call takes its next step, or waits for a latch, also behind other
threads that wait for the same latch. Along the order of the latches, and the one in which they
serve the waiting threads, every chain of blocked threads comes to an end, at a thread that takes a
step or that waits for a leaf that a guard retains.
-/

namespace BLink

open Library

variable {ι K V : Type} [TotalOrd K] [DecidableEq ι]

variable {N : PageCapacity} {m m' : Machine ι K V} {shape : Shape} {levels : Levels PageId} {θ : ι}
  {call : Call K V} {pc : Pc K V}

-----------------------------------------------------------------------------------------
-- The next step of a thread
-----------------------------------------------------------------------------------------

/-- The thread goes on with its call, or returns from it. -/
def Action.GoesOn (θ : ι) : Action ι K V → Prop
  | .enter thread | .acquire thread | .latch thread | .miss thread | .hop thread
  | .act thread _ | .load thread | .count thread | .release thread | .respond thread _ _ =>
      thread = θ
  | .invoke _ _ | .retain _ | .drop _ => False

/-- The latch that a thread waits for, and how it is going to hold it. -/
def Machine.awaited (m : Machine ι K V) (θ : ι) : Option (Latch × Mode) :=
  match (m.worker θ).phase with
  | .await latch mode => some (latch, mode)
  | _ => none

/-- The thread can take its next step, and no other one is ahead of it for the latch that it waits
for.
-/
def Machine.CanGoOn (N : PageCapacity) (ahead : ι → ι → Prop) (m : Machine ι K V) (θ : ι) : Prop :=
  (∃ action m', action.GoesOn θ ∧ (Machine.transitions ι K V N).step m action m')
  ∧ ∀ other, ¬ QueuesBehind m.awaited ahead θ other

/-- A thread that releases a latch to wait for another one holds it. -/
theorem Stage.held_of_hop {n : Nat} {t : Tree K V} {held : List (Latch × Mode)} {target : PageId}
    (stage : Stage n t pc held (.hop target))
    : held ≠ [] := by
  generalize hops : Phase.hop target = phase at stage
  cases stage with
  | first =>
      cases pc with
      | repairSplitBacklink _ _ _ oldSuccessor => cases oldSuccessor <;> cases hops
      | _ => cases hops
  | _ => exact List.cons_ne_nil _ _

omit [DecidableEq ι] in
theorem Machine.awaited_eq_some {latch : Latch} {mode : Mode}
    : m.awaited θ = some (latch, mode) ↔ (m.worker θ).phase = .await latch mode := by
  rw [Machine.awaited]
  split
  next other mode' waits => simp [waits]
  next other => exact iff_of_false nofun (other latch mode)

/-- A thread in the middle of a call can take its next step, unless it waits for a latch. -/
theorem MachineOk.exists_step (ok : MachineOk N m shape levels)
    (running : (m.system.thread θ).status = .running call pc)
    : (∃ action m', action.GoesOn θ ∧ (Machine.transitions ι K V N).step m action m')
      ∨ ∃ latch mode,
          (m.worker θ).phase = .await latch mode ∧ ¬ Available m.held latch mode := by
  classical
  have worker := ok.worker θ
  generalize current : m.worker θ = at' at worker
  obtain ⟨held, phase⟩ := at'
  have does : (m.worker θ).phase = phase := congrArg Worker.phase current
  cases phase with
  | await latch mode =>
      by_cases available : Available m.held latch mode
      · exact .inl ⟨.acquire θ, _, rfl, .acquire running does available⟩
      · exact .inr ⟨latch, mode, rfl, available⟩
  | attempt p => exact .inl ⟨.miss θ, _, rfl, .miss does⟩
  | hop target =>
      obtain ⟨_, _, -, -, acquired⟩ := worker.acquired (by simp) (by simp)
      obtain ⟨newest, rest, rfl⟩ := List.exists_cons_of_ne_nil acquired.stage.held_of_hop
      exact .inl ⟨.hop θ, _, rfl, .hop current⟩
  | act latched =>
      let alive : Bool := decide (∃ page ∈ pc.upgrades m.system.tree, m.Alive page)
      refine .inl ⟨.act θ alive, _, rfl, .act running does (fun page upgrades => ?_)⟩
      rw [decide_eq_true_iff, upgrades]
      simp
  | load => exact .inl ⟨.load θ, _, rfl, .load running does⟩
  | count => exact .inl ⟨.count θ, _, rfl, .count does⟩
  | release =>
      cases held with
      | cons newest rest => exact .inl ⟨.release θ, _, rfl, .release current⟩
      | nil =>
          cases final : pc.isFinal with
          | false => exact .inl ⟨.enter θ, _, rfl, .enter running final current⟩
          | true =>
              cases pc with
              | done response =>
                  exact .inl ⟨.respond θ call response, _, rfl, .respond running current⟩
              | panicked => exact ((ok.arranged.ok.thread θ).pc call _ running).elim
              | _ => cases final

-----------------------------------------------------------------------------------------
-- Chains of waiting threads
-----------------------------------------------------------------------------------------

/-- The threads in the middle of a call. -/
def Machine.busy (m : Machine ι K V) : Set ι := {θ | (m.system.thread θ).status ≠ .idle}

omit [DecidableEq ι] in
theorem Machine.mem_busy : θ ∈ m.busy ↔ (m.system.thread θ).status ≠ .idle := Iff.rfl

theorem System.afterSection_other (s : System ι K V) (call : Call K V)
    (result : Except Panic (Tree K V × Pc K V)) {other : ι} (differs : other ≠ θ)
    : (s.afterSection θ call result).thread other = s.thread other := by
  cases result <;> exact System.setThread_other _ _ differs

/-- Every step leaves all threads but one where they are. -/
theorem Machine.Step.others {action : Action ι K V} (step : Machine.Step N m action m')
    : (∀ other, m'.system.thread other = m.system.thread other)
      ∨ ∃ θ, ∀ other, other ≠ θ → m'.system.thread other = m.system.thread other := by
  cases step with
  | invoke | respond | load =>
      exact .inr ⟨_, fun other differs => System.setThread_other _ _ differs⟩
  | act => exact .inr ⟨_, fun other differs => System.afterSection_other _ _ _ differs⟩
  | _ => exact .inl fun _ => rfl

/-- Only finitely many threads are in the middle of a call. -/
theorem Machine.busy_finite (reached : (Machine.transitions ι K V N).Reachable m)
    : m.busy.Finite := by
  refine reached.invariant (I := fun m => m.busy.Finite) ?_ ?_
  · intro m initial
    refine Set.Finite.subset Set.finite_empty (fun θ isBusy => ?_)
    exact absurd (initial.system.idle θ) isBusy
  · intro m action m' _ finite step
    rcases Machine.Step.others step with same | ⟨θ, same⟩
    · refine finite.subset (fun other isBusy => ?_)
      rwa [Machine.mem_busy, same other] at isBusy
    · refine (finite.insert θ).subset (fun other isBusy => ?_)
      by_cases here : other = θ
      · exact .inl here
      · rw [Machine.mem_busy, same other here] at isBusy
        exact .inr isBusy

/-- The thread waits for a leaf whose latch a public guard retains. -/
def Machine.WaitsForGuard (m : Machine ι K V) (θ : ι) : Prop :=
  ∃ latch mode,
    (m.worker θ).phase = .await latch mode
    ∧ m.system.tree.IsLeaf latch
    ∧ ∃ other, (latch, other) ∈ m.guards ∧ mode.Excludes other

/-- The other thread has to go on before the waiting one can: it holds the latch, or gets it
first.
-/
def Machine.BlockedBy (ahead : ι → ι → Prop) (m : Machine ι K V) (waiter other : ι) : Prop :=
  Library.BlockedBy m.awaited (fun θ => (m.worker θ).held) ahead waiter other

omit [DecidableEq ι] in
/-- Only threads in the middle of a call block others. -/
theorem MachineOk.busy_of_blocked (ok : MachineOk N m shape levels) {ahead : ι → ι → Prop}
    {waiter other : ι} (blocked : m.BlockedBy ahead waiter other)
    : other ∈ m.busy := by
  rw [Machine.mem_busy]
  rcases blocked with ⟨latch, mode, mode', -, holds, -⟩ | ⟨latch, mode, mode', -, awaits, -, -⟩
  · rcases ok.running_of_held other with nothing | ⟨call, pc, running⟩
    · have holds : (latch, mode') ∈ (m.worker other).held := holds
      rw [nothing] at holds
      cases holds
    · simp [running]
  · have waits := Machine.awaited_eq_some.mp awaits
    obtain ⟨call, pc, running, -⟩ := (ok.worker other).acquired (by simp [waits]) (by simp [waits])
    simp [running]

omit [DecidableEq ι] in
/-- Threads do not block each other in a cycle. -/
theorem MachineOk.blocked_acyclic (ok : MachineOk N m shape levels) {ahead : ι → ι → Prop}
    (apart : ∀ θ, ¬ ahead θ θ) (further : ∀ a b c, ahead a b → ahead b c → ahead a c) (θ : ι)
    : ¬ Relation.TransGen (m.BlockedBy ahead) θ θ := by
  have ordered (θ : ι) (latch mine : Latch) (mode mode' : Mode)
      (awaits : m.awaited θ = some (latch, mode)) (holds : (mine, mode') ∈ (m.worker θ).held)
      : mine.Before levels latch := by
    refine ok.waits_upwards ?_ holds
    rw [Machine.wanted, Machine.awaited_eq_some.mp awaits]
  exact (Library.BlockedBy.rises ordered).acyclic Latch.Before.irrefl Latch.Before.trans apart
    further θ

/-- Latches may serve the threads that wait for them in any order. From every thread in the middle
of a call, threads that block each other lead to one that can take its next step and that no other
one is ahead of, or that waits for a leaf whose latch a public guard retains. So when no guard is
retained, some thread can always go on.
-/
theorem blocked_only_by_guards (reached : (Machine.transitions ι K V N).Reachable m)
    {ahead : ι → ι → Prop} (apart : ∀ θ, ¬ ahead θ θ)
    (further : ∀ a b c, ahead a b → ahead b c → ahead a c)
    (busy : (m.system.thread θ).status ≠ .idle)
    : ∃ last,
        Relation.ReflTransGen (m.BlockedBy ahead) θ last
        ∧ (m.CanGoOn N ahead last ∨ m.WaitsForGuard last) := by
  obtain ⟨shape, levels, ok⟩ := machine_ok reached
  obtain ⟨last, isBusy, chain, ended⟩ :=
    exists_last_of_acyclic (ok.blocked_acyclic apart further) (Machine.busy_finite reached)
      (fun _ _ => ok.busy_of_blocked) busy
  refine ⟨last, chain, ?_⟩
  cases status : (m.system.thread last).status with
  | idle => exact absurd status isBusy
  | running call pc =>
      refine (ok.exists_step status).imp (fun steps => ?_) (fun waits => ?_)
      · exact ⟨steps, fun other queues => ended other (.inr queues)⟩
      · obtain ⟨latch, mode, awaits, unavailable⟩ := waits
        simp only [Available, not_forall] at unavailable
        obtain ⟨holder, other, holds, conflict⟩ := unavailable
        cases holder with
        | some holder =>
            have held : HeldBack m.awaited (fun θ => (m.worker θ).held) last holder :=
              ⟨latch, mode, other, Machine.awaited_eq_some.mpr awaits, holds, conflict⟩
            exact absurd (.inl held) (ended holder)
        | none => exact ⟨latch, mode, awaits, ok.guard _ holds, other, holds, conflict⟩

/-- A latch serves a thread that waits for it exclusively before all that are to share it. -/
def Machine.WriterFirst (m : Machine ι K V) (first second : ι) : Prop :=
  ∃ latch latch',
    m.awaited first = some (latch, .exclusive) ∧ m.awaited second = some (latch', .shared)

/-- A thread that has split a leaf waits for the leaf next to it, which a guard retains. Behind it
another thread waits to read that leaf.
-/
theorem blocked_only_by_guards_split
    : ∃ m : Machine (Fin 2) Nat Nat,
        (.page 2, .shared) ∈ m.guards
        ∧ m.awaited 1 = some (.page 2, .exclusive)
        ∧ m.BlockedBy m.WriterFirst 0 1
        ∧ ∃ last,
            Relation.ReflTransGen (m.BlockedBy m.WriterFirst) 0 last
            ∧ (m.CanGoOn .smallest m.WriterFirst last ∨ m.WaitsForGuard last) := by
  have plays : ((Machine.fresh : Machine (Fin 2) Nat Nat).replay .smallest [0, 1]
      (Turn.guarded ++ .invoke 1 (.insert 13 13) :: List.replicate 33 (.advance 1)
        ++ .invoke 0 (.get (.ofKey 30)) :: List.replicate 8 (.advance 0))).map
        (fun played => (played.2.awaited 0, played.2.awaited 1, played.2.guards))
      = some (some (.page 2, .shared), some (.page 2, .exclusive), [(.page 2, .shared)]) := by
    decide +kernel
  obtain ⟨⟨trace, m⟩, replayed, state⟩ := Option.map_eq_some_iff.mp plays
  simp only [Prod.mk.injEq] at state
  obtain ⟨reads, writes, guards⟩ := state
  have reached := Machine.reachable_of_replay (by decide) replayed
  have behind : m.BlockedBy m.WriterFirst 0 1 :=
    .inr ⟨.page 2, .shared, .exclusive, reads, writes, ⟨_, _, writes, reads⟩,
      by simp [Mode.Excludes]⟩
  have apart (θ : Fin 2) : ¬ m.WriterFirst θ θ := by
    rintro ⟨latch, latch', first, second⟩
    cases first.symm.trans second
  have further (a b c : Fin 2) (first : m.WriterFirst a b) (second : m.WriterFirst b c)
      : m.WriterFirst a c := by
    obtain ⟨-, latch, -, reader⟩ := first
    obtain ⟨latch', -, writer, -⟩ := second
    cases reader.symm.trans writer
  have busy : (m.system.thread 0).status ≠ .idle := by
    intro idle
    obtain ⟨shape, levels, ok⟩ := machine_ok reached
    have waits := Machine.awaited_eq_some.mp reads
    obtain ⟨_, _, running, -⟩ := (ok.worker 0).acquired (by simp [waits]) (by simp [waits])
    rw [idle] at running
    cases running
  exact ⟨m, guards ▸ List.mem_cons_self, writes, behind,
    blocked_only_by_guards reached apart further busy⟩

end BLink
