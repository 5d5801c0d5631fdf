import BLink.Latching.Frame
import BLink.Latching.Leaves
import BLink.Latching.Order

/-! What holds of the latches in every state that threads can reach together.
A thread in the middle of a section has acquired what the section demands in the tree as it
is, because nothing that the thread has latched can change meanwhile.
-/

namespace BLink

open Library

variable {ι K V : Type} [TotalOrd K]

/-- What a thread holds and does next fits where it is in its call. -/
inductive WorkerOk (N : Nat) (t : Tree K V) : Status K V → Worker → Prop
  | idle : WorkerOk N t .idle .resting
  | acquiring {call pc held phase} (unfinished : pc.isFinal = false)
    (acquired : Acquired N t pc held phase)
    : WorkerOk N t (.running call pc) { held, phase }
  | counting {call pc p entries tally} (allocated : p < t.pages)
    (kind : (t.page p).kind = .leaf entries) (added : tally = .added → entries ≠ [])
    : WorkerOk N t (.running call pc)
        { held := [(.page p, .exclusive)], phase := .count tally }
  | releasing {call pc held} (found : pc.Finds → ∀ holding ∈ held, t.IsLeaf holding.1)
    : WorkerOk N t (.running call pc) { held, phase := .release }

section

variable {N : Nat} {t t' : Tree K V} {status : Status K V} {worker : Worker} {call : Call K V}
  {pc : Pc K V}

omit [TotalOrd K] in
theorem Tree.IsLeaf.agree {held : List (Latch × Mode)} {holding : Latch × Mode}
    (isLeaf : t.IsLeaf holding.1) (agree : Agree t t' held) (member : holding ∈ held)
    (pages : t.pages ≤ t'.pages)
    : t'.IsLeaf holding.1 := by
  obtain ⟨p, entries, same, allocated, kind⟩ := isLeaf
  obtain ⟨latch, mode⟩ := holding
  subst same
  exact ⟨p, entries, rfl, Nat.lt_of_lt_of_le allocated pages, by rw [agree.page p mode member, kind]⟩

/-- A thread stays where it is while others change what it has not latched. -/
theorem WorkerOk.agree (ok : WorkerOk N t status worker) (agree : Agree t t' worker.held)
    (retired : ∀ p target, t.forward p = some target → t'.forward p = some target)
    (pages : t.pages ≤ t'.pages)
    : WorkerOk N t' status worker := by
  cases ok with
  | idle => exact .idle
  | acquiring unfinished acquired => exact .acquiring unfinished (acquired.agree agree retired)
  | @counting _ _ p entries _ allocated kind added =>
      have same := agree.page p .exclusive List.mem_cons_self
      exact .counting (Nat.lt_of_lt_of_le allocated pages) (by rw [same, kind]) added
  | releasing found =>
      refine .releasing (fun finds holding member => ?_)
      exact (found finds holding member).agree agree member pages

/-- A thread that begins a section has everything before it. -/
theorem WorkerOk.begin : WorkerOk N t (.running call pc) { held := [], phase := t.plan N pc [] } := by
  cases final : pc.isFinal with
  | false => exact .acquiring final .enter
  | true =>
      cases pc with
      | done | panicked => exact .releasing (fun _ => nofun)
      | _ => cases final

/-- Until it acts, a thread is acquiring latches. -/
theorem WorkerOk.acquired (ok : WorkerOk N t status worker)
    (notCounting : ∀ tally, worker.phase ≠ .count tally) (notReleasing : worker.phase ≠ .release)
    : ∃ call pc,
        status = .running call pc
        ∧ pc.isFinal = false
        ∧ Acquired N t pc worker.held worker.phase := by
  cases ok with
  | idle => exact absurd rfl notReleasing
  | acquiring unfinished acquired => exact ⟨_, _, rfl, unfinished, acquired⟩
  | counting => exact absurd rfl (notCounting _)
  | releasing => exact absurd rfl notReleasing

theorem Acquired.not_count {held : List (Latch × Mode)} {tally : Tally}
    : ¬ Acquired N t pc held (.count tally) := by
  intro acquired
  have stage := acquired.stage
  generalize counts : Phase.count tally = phase at stage
  cases stage with
  | first =>
      cases pc with
      | repairSplitBacklink _ _ _ oldSuccessor => cases oldSuccessor <;> cases counts
      | _ => cases counts
  | _ => cases counts

/-- A thread that updates the counter holds only the latch of its leaf. -/
theorem WorkerOk.count {tally : Tally} (ok : WorkerOk N t status worker)
    (counts : worker.phase = .count tally)
    : WorkerOk N t status { worker with phase := .release } := by
  cases ok with
  | idle => cases counts
  | acquiring _ acquired => cases counts; exact absurd acquired Acquired.not_count
  | @counting _ _ p entries _ allocated kind added =>
      refine .releasing (fun _ holding member => ?_)
      obtain rfl := List.mem_singleton.mp member
      exact ⟨p, entries, rfl, allocated, kind⟩
  | releasing => cases counts

/-- A thread that holds a latch and releases it has acted. -/
theorem WorkerOk.release {newest : Latch × Mode} {rest : List (Latch × Mode)}
    (ok : WorkerOk N t status { held := newest :: rest, phase := .release })
    : WorkerOk N t status { held := rest, phase := .release } := by
  cases ok with
  | acquiring _ acquired => cases acquired.stage
  | releasing found =>
      refine .releasing (fun finds holding member => ?_)
      exact found finds holding (List.mem_cons_of_mem newest member)

end

/-- The system is arranged, latches exclude each other and protect allocated pages, every
thread is where its section has led it, and public guards retain leaves.
-/
structure MachineOk (N : PageCapacity) (m : Machine ι K V) (shape : Shape)
    (levels : Levels PageId)
    : Prop where
  arranged : Arranged N m.system shape levels
  exclusive : Exclusive m.held
  allocated : ∀ holder p mode, (.page p, mode) ∈ m.held holder → p < m.system.tree.pages
  worker : ∀ θ, WorkerOk N.size m.system.tree (m.system.thread θ).status (m.worker θ)
  guard : ∀ holding ∈ m.guards, m.system.tree.IsLeaf holding.1

variable [DecidableEq ι] {N : PageCapacity} {m m' : Machine ι K V} {shape : Shape}
  {levels : Levels PageId} {θ : ι} {call : Call K V} {pc : Pc K V}

theorem Machine.held_setWorker (m : Machine ι K V) (θ : ι) (worker : Worker)
    : (m.setWorker θ worker).held = Function.update m.held (some θ) worker.held := by
  funext holder
  cases holder with
  | none => rw [Function.update_of_ne (Option.some_ne_none θ).symm]; rfl
  | some other =>
      by_cases same : other = θ
      · subst same
        rw [Function.update_self]
        exact congrArg Worker.held (Function.update_self ..)
      · rw [Function.update_of_ne (fun equal => same (Option.some.inj equal))]
        exact congrArg Worker.held (Function.update_of_ne same ..)

/-- A thread that takes a step of its own disturbs nobody. -/
theorem MachineOk.setWorker {worker : Worker} (ok : MachineOk N m shape levels)
    (exclusive : Exclusive (Function.update m.held (some θ) worker.held))
    (allocated : ∀ p mode, (.page p, mode) ∈ worker.held → p < m.system.tree.pages)
    (good : WorkerOk N.size m.system.tree (m.system.thread θ).status worker)
    : MachineOk N (m.setWorker θ worker) shape levels where
  arranged := ok.arranged
  exclusive := by
    rw [Machine.held_setWorker]
    exact exclusive
  allocated := by
    intro holder p mode member
    rw [Machine.held_setWorker] at member
    by_cases mine : holder = some θ
    · subst mine
      rw [Function.update_self] at member
      exact allocated p mode member
    · rw [Function.update_of_ne mine] at member
      exact ok.allocated holder p mode member
  worker := by
    intro other
    by_cases mine : other = θ
    · subst mine
      rw [show (m.setWorker other worker).worker other = worker from Function.update_self ..]
      exact good
    · rw [show (m.setWorker θ worker).worker other = m.worker other from
        Function.update_of_ne mine ..]
      exact ok.worker other
  guard := ok.guard

/-- A thread may give up latches. -/
theorem MachineOk.keep {worker : Worker} (ok : MachineOk N m shape levels)
    (fewer : worker.held ⊆ (m.worker θ).held)
    (good : WorkerOk N.size m.system.tree (m.system.thread θ).status worker)
    : MachineOk N (m.setWorker θ worker) shape levels := by
  refine ok.setWorker ?_ (fun p mode member => ok.allocated (some θ) p mode (fewer member)) good
  refine ok.exclusive.mono (fun holder => ?_)
  by_cases mine : holder = some θ
  · subst mine
    rw [Function.update_self]
    exact fewer
  · rw [Function.update_of_ne mine]
    exact List.Subset.refl _

omit [DecidableEq ι] in
/-- A thread that has not acted yet is on its way through its section. -/
theorem MachineOk.acquired {phase : Phase} (ok : MachineOk N m shape levels)
    (running : (m.system.thread θ).status = .running call pc)
    (next : (m.worker θ).phase = phase) (notCounting : ∀ tally, phase ≠ .count tally)
    (notReleasing : phase ≠ .release)
    : pc.isFinal = false ∧ Acquired N.size m.system.tree pc (m.worker θ).held phase := by
  subst next
  obtain ⟨call', pc', same, unfinished, acquired⟩ := (ok.worker θ).acquired notCounting notReleasing
  cases running.symm.trans same
  exact ⟨unfinished, acquired⟩

/-- A thread acquires an available latch that its section demands. -/
theorem MachineOk.grant {latch : Latch} {mode : Mode} (ok : MachineOk N m shape levels)
    (running : (m.system.thread θ).status = .running call pc)
    (unfinished : pc.isFinal = false) (available : Available m.held latch mode)
    (allocated : ∀ p, latch = .page p → p < m.system.tree.pages)
    (acquired
      : Acquired N.size m.system.tree pc ((latch, mode) :: (m.worker θ).held)
          (m.system.tree.plan N.size pc ((latch, mode) :: (m.worker θ).held)))
    : MachineOk N (m.grant N θ pc latch mode) shape levels := by
  refine ok.setWorker (ok.exclusive.acquire available (some θ)) ?_ ?_
  · intro p other member
    cases List.mem_cons.mp member with
    | inl new => exact allocated p (Prod.mk.inj new).1.symm
    | inr old => exact ok.allocated (some θ) p other old
  · rw [running]
    exact .acquiring unfinished acquired

/-- What a thread does in its program leaves its latches alone. -/
theorem MachineOk.setThread {thread : Thread K V} (ok : MachineOk N m shape levels)
    (good : ThreadOk m.system.tree shape thread)
    (worker : WorkerOk N.size m.system.tree thread.status (m.worker θ))
    : MachineOk N (m.setThread θ thread) shape levels where
  arranged := ⟨ok.arranged.ok.setThread good, ok.arranged.ordered⟩
  exclusive := ok.exclusive
  allocated := ok.allocated
  worker := by
    intro other
    by_cases mine : other = θ
    · subst mine
      rw [Machine.setThread, System.setThread_same]
      exact worker
    · rw [Machine.setThread, System.setThread_other m.system thread mine]
      exact ok.worker other
  guard := ok.guard

theorem Phase.publish_same (count : Nat) : Phase.publish count count = .release := by
  rw [publish, if_neg (by omega), if_neg (by omega)]

omit [DecidableEq ι] in
/-- A cursor yields a record only if its section has found one. -/
theorem Thread.resume_finds {thread : Thread K V} {pc pc' : Pc K V}
    (resumes : (thread.resume call pc).status = .running call pc') (finds : pc'.Finds)
    : pc.Finds := by
  cases pc with
  | candidate cursor found =>
      cases resumes
      cases found with
      | some entry => trivial
      | none =>
          revert finds
          cases thread.cursors cursor <;> exact id
  | _ => cases resumes; exact finds

/-- A section that a thread passes while it holds the section's latches. -/
structure LatchedPass (N : PageCapacity) (m : Machine ι K V) (shape : Shape)
    (levels : Levels PageId) (θ : ι) (latched upgraded : Bool) (m' : Machine ι K V)
    (call : Call K V) (pc : Pc K V) (t' : Tree K V) (pc' : Pc K V) (shape' : Shape)
    (levels' : Levels PageId)
    : Prop where
  passed
    : SectionPass N m.system shape θ latched upgraded m'.system call pc t' pc'
  advance : Advance N.size m.system.tree shape t' shape' pc'
  ordered : Ordered t' shape' levels'
  grows : levels.Grows levels'
  stage : Stage N.size m.system.tree pc (m.worker θ).held (.act latched)
  confined : Confined m.system.tree t' (m.worker θ).held
  worker
    : m'.worker
      = Function.update m.worker θ {
          m.worker θ with
          phase := .publish m.system.tree.len t'.len
        }
  guards : m'.guards = m.guards

/-- A thread with all latches of its section can pass it. -/
theorem MachineOk.perform (ok : MachineOk N m shape levels) {latched : Bool}
    (running : (m.system.thread θ).status = .running call pc)
    (acts : (m.worker θ).phase = .act latched) (upgraded : Bool)
    : ∃ t' pc' shape' levels',
        LatchedPass N m shape levels θ latched upgraded (m.perform N θ call latched upgraded pc) call
          pc t' pc' shape' levels' := by
  obtain ⟨unfinished, acquired⟩ := ok.acquired running acts nofun nofun
  obtain ⟨t', pc', passed⟩ := ok.arranged.ok.pass running unfinished latched upgraded
  obtain ⟨shape', advance, -⟩ := passed.preserved ok.arranged.ok
  obtain ⟨levels', ordered, grows⟩ :=
    passed.effect.ordered ok.arranged.ok.inv N.three_le advance.inv ok.arranged.ordered
  refine ⟨t', pc', shape', levels', {
    passed := passed
    advance := advance
    ordered := ordered
    grows := grows
    stage := acquired.stage
    confined := acquired.stage.confined upgraded (t', pc') passed.result
    worker := ?_
    guards := rfl
  }⟩
  simp only [Machine.perform, passed.target]
  rfl

namespace LatchedPass

variable {latched upgraded : Bool} {pc' : Pc K V} {t' : Tree K V} {shape' : Shape}
  {levels' : Levels PageId}

theorem tree_eq
    (pass : LatchedPass N m shape levels θ latched upgraded m' call pc t' pc' shape' levels')
    : m'.system.tree = t' := by
  rw [pass.passed.target]

/-- Nobody holds other latches than before. -/
theorem held_eq
    (pass : LatchedPass N m shape levels θ latched upgraded m' call pc t' pc' shape' levels')
    : m'.held = m.held := by
  funext holder
  cases holder with
  | none => exact pass.guards
  | some other =>
      show (m'.worker other).held = (m.worker other).held
      rw [pass.worker]
      by_cases mine : other = θ
      · subst mine
        rw [Function.update_self]
      · rw [Function.update_of_ne mine]

/-- The section changes nothing that anybody else has latched. -/
theorem agree
    (pass : LatchedPass N m shape levels θ latched upgraded m' call pc t' pc' shape' levels')
    (ok : MachineOk N m shape levels) {holder : Option ι} (other : holder ≠ some θ)
    : Agree m.system.tree t' (m.held holder) where
  root mode member := pass.confined.root
    (fun mine => ok.exclusive (some θ) holder other.symm .slot mode mine member)
  page p mode member := pass.confined.page p (ok.allocated holder p mode member)
    (fun mine => ok.exclusive (some θ) holder other.symm (.page p) mode mine member)

/-- The thread publishes the change of the counter, or releases its latches. -/
theorem workerOk
    (pass : LatchedPass N m shape levels θ latched upgraded m' call pc t' pc' shape' levels')
    (ok : MachineOk N m shape levels)
    : WorkerOk N.size t' (m'.system.thread θ).status (m'.worker θ) := by
  have inv := ok.arranged.ok.inv
  have status : (m'.system.thread θ).status = ((m.system.thread θ).resume call pc').status := by
    rw [pass.passed.target]
    exact congrArg Thread.status (System.setThread_same ..)
  obtain ⟨pc'', resumes, -⟩ := (m.system.thread θ).resume_running call pc'
  rw [status, resumes, pass.worker, Function.update_self]
  rcases pass.passed.effect.counts with same | ⟨p, old, new, target, updated, changes⟩
  · rw [same, Phase.publish_same]
    refine .releasing (fun finds holding member => ?_)
    obtain ⟨p, mode, sole, isLeaf⟩ :=
      pass.passed.effect.found inv (Thread.resume_finds resumes finds)
    rw [pass.stage.held_of_sole sole] at member
    obtain rfl := List.mem_singleton.mp member
    exact isLeaf
  · have held := pass.stage.held_of_leaf target updated.kind
    have len := updated.len
    have allocated : p < t'.pages := by
      rw [updated.pages]
      refine ok.allocated (some θ) p .exclusive ?_
      show (.page p, .exclusive) ∈ (m.worker θ).held
      rw [held]
      exact List.mem_cons_self
    have kind : (t'.page p).kind = .leaf new := by rw [updated.page]
    show WorkerOk N.size t' _
      { held := (m.worker θ).held, phase := .publish m.system.tree.len t'.len }
    rw [held]
    rcases changes with more | fewer
    · rw [Phase.publish, if_pos (by omega)]
      refine .counting allocated kind (fun _ empty => ?_)
      rw [empty] at more
      cases more
    · rw [Phase.publish, if_neg (by omega), if_pos (by omega)]
      exact .counting allocated kind nofun

/-- The state after a section is good. -/
theorem machineOk
    (pass : LatchedPass N m shape levels θ latched upgraded m' call pc t' pc' shape' levels')
    (ok : MachineOk N m shape levels)
    : MachineOk N m' shape' levels' where
  arranged := ⟨pass.passed.systemOk ok.arranged.ok pass.advance, pass.tree_eq ▸ pass.ordered⟩
  exclusive := pass.held_eq ▸ ok.exclusive
  allocated := by
    intro holder p mode member
    rw [pass.held_eq] at member
    rw [pass.tree_eq]
    exact Nat.lt_of_lt_of_le (ok.allocated holder p mode member) pass.advance.evolves.pages
  worker := by
    intro other
    rw [pass.tree_eq]
    by_cases mine : other = θ
    · subst mine
      exact pass.workerOk ok
    · have same : m'.system.thread other = m.system.thread other := by
        rw [pass.passed.target]
        exact System.setThread_other m.system _ mine
      rw [same, pass.worker, Function.update_of_ne mine]
      exact (ok.worker other).agree (pass.agree ok (fun equal => mine (Option.some.inj equal)))
        pass.advance.evolves.retired pass.advance.evolves.pages
  guard := by
    intro holding member
    rw [pass.guards] at member
    rw [pass.tree_eq]
    exact (ok.guard holding member).agree (pass.agree ok (Option.some_ne_none θ).symm) member
      pass.advance.evolves.pages

end LatchedPass

-----------------------------------------------------------------------------------------
-- Reachable states
-----------------------------------------------------------------------------------------

omit [DecidableEq ι] in
/-- Nobody holds anything before the first call. -/
theorem Machine.Initial.ok (initial : m.Initial) : MachineOk N m Shape.single Levels.first := by
  have nothing (holder : Option ι) : m.held holder = [] := by
    cases holder with
    | none => exact initial.guards
    | some θ => exact congrArg Worker.held (initial.worker θ)
  refine {
    arranged := ⟨initial.system.ok, ?_⟩
    exclusive := ?_
    allocated := ?_
    worker := ?_
    guard := ?_
  }
  · rw [initial.system.tree]
    exact .empty
  · intro holder _ _ _ _ member
    rw [nothing holder] at member
    cases member
  · intro holder _ _ member
    rw [nothing holder] at member
    cases member
  · intro θ
    rw [initial.system.idle θ, initial.worker θ]
    exact .idle
  · intro _ member
    rw [initial.guards] at member
    cases member

omit [DecidableEq ι] in
/-- A thread waits for a latch of an allocated page. -/
theorem MachineOk.wanted_allocated (ok : MachineOk N m shape levels) {phase : Phase} {p : PageId}
    (running : (m.system.thread θ).status = .running call pc)
    (acquired : Acquired N.size m.system.tree pc (m.worker θ).held phase)
    (wants : phase.wants = some p)
    : p < m.system.tree.pages :=
  acquired.stage.wanted_allocated ((ok.arranged.ok.thread θ).pc call pc running)
    ok.arranged.ok.inv ok.arranged.ordered wants

/-- The counter is loaded without a latch. -/
theorem Acquired.load {n : Nat} {t : Tree K V} {held : List (Latch × Mode)}
    (acquired : Acquired n t pc held .load)
    : held = [] ∧ (pc = .loadLen ∨ pc = .loadIsEmpty) := by
  have stage := acquired.stage
  generalize loads : Phase.load = phase at stage
  cases stage with
  | first =>
      refine ⟨rfl, ?_⟩
      cases pc with
      | loadLen => exact .inl rfl
      | loadIsEmpty => exact .inr rfl
      | repairSplitBacklink _ _ _ oldSuccessor => cases oldSuccessor <;> cases loads
      | _ => cases loads
  | _ => cases loads

omit [DecidableEq ι] in
/-- Neither invariant mentions the counter. -/
theorem MachineOk.setCounter (ok : MachineOk N m shape levels) (counter : Nat)
    : MachineOk N { m with counter } shape levels :=
  ⟨ok.arranged, ok.exclusive, ok.allocated, ok.worker, ok.guard⟩

/-- The thread leaves the latch on its record's leaf to a public guard. -/
theorem MachineOk.retain {holding : Latch × Mode} (ok : MachineOk N m shape levels)
    (running : (m.system.thread θ).status = .running call pc) (finds : pc.Finds)
    (last : m.worker θ = { held := [holding], phase := .release })
    : MachineOk N { m.setWorker θ .resting with guards := holding :: m.guards } shape levels := by
  have isLeaf : m.system.tree.IsLeaf holding.1 := by
    have worker := ok.worker θ
    rw [running, last] at worker
    cases worker with
    | acquiring _ acquired => cases acquired.stage
    | releasing found => exact found finds holding List.mem_cons_self
  have resting : MachineOk N (m.setWorker θ .resting) shape levels := by
    refine ok.keep (List.nil_subset _) ?_
    rw [running]
    exact .releasing (fun _ => nofun)
  let m' : Machine ι K V := { m.setWorker θ .resting with guards := holding :: m.guards }
  have held : m'.held
      = Function.update (Function.update m.held (some θ) []) none
          (m.held (some θ) ++ m.held none) := by
    funext holder
    cases holder with
    | none =>
        rw [Function.update_self]
        show holding :: m.guards = (m.worker θ).held ++ m.guards
        rw [last]
        rfl
    | some other =>
        rw [Function.update_of_ne (Option.some_ne_none other)]
        exact congrFun (Machine.held_setWorker m θ .resting) (some other)
  refine {
    arranged := ok.arranged
    exclusive := ?_
    allocated := ?_
    worker := resting.worker
    guard := ?_
  }
  · show Exclusive m'.held
    rw [held]
    exact ok.exclusive.pass (Option.some_ne_none θ)
  · intro holder p mode member
    cases holder with
    | some other => exact resting.allocated (some other) p mode member
    | none =>
        cases List.mem_cons.mp member with
        | inl new =>
            obtain ⟨q, _, same, allocated, -⟩ := isLeaf
            rw [← new] at same
            cases same
            exact allocated
        | inr old => exact ok.allocated none p mode old
  · intro guard member
    cases List.mem_cons.mp member with
    | inl new => exact new ▸ isLeaf
    | inr old => exact ok.guard guard old

omit [DecidableEq ι] in
/-- A public guard is dropped. -/
theorem MachineOk.dropGuard (ok : MachineOk N m shape levels) (guard : Latch × Mode)
    : MachineOk N { m with guards := m.guards.erase guard } shape levels where
  arranged := ok.arranged
  exclusive := by
    refine ok.exclusive.mono (fun holder => ?_)
    cases holder with
    | none => exact List.erase_subset
    | some θ => exact List.Subset.refl _
  allocated := by
    intro holder p mode member
    cases holder with
    | none => exact ok.allocated none p mode (List.erase_subset member)
    | some θ => exact ok.allocated (some θ) p mode member
  worker := ok.worker
  guard holding member := ok.guard holding (List.erase_subset member)

/-- Every step leads from a good state to a good state. -/
theorem MachineOk.step {action : Action ι K V} (ok : MachineOk N m shape levels)
    (step : (Machine.transitions ι K V N).step m action m')
    : ∃ shape' levels', MachineOk N m' shape' levels' := by
  have system := ok.arranged.ok
  cases step with
  | @invoke θ call idle =>
      have ready (cursor : Nat) : ((m.system.thread θ).cursors cursor).Ready := by
        refine (system.thread θ).ready cursor (fun _ _ _ running => ?_)
        rw [idle] at running
        cases running
      have resting : m.worker θ = .resting := by
        have worker := ok.worker θ
        rw [idle] at worker
        generalize m.worker θ = current at worker
        cases worker
        rfl
      refine ⟨shape, levels, (ok.setThread (call.begin_ok ready) ?_).keep (List.nil_subset _) ?_⟩
      · rw [resting]
        exact .releasing (fun _ => nofun)
      · rw [Machine.setThread, System.setThread_same]
        exact .begin
  | @respond θ call response done free =>
      refine ⟨shape, levels, ok.setThread (.idle rfl (fun cursor => ?_)) ?_⟩
      · refine (system.thread θ).ready cursor (fun _ _ _ running => ?_)
        rw [done] at running
        cases running
        exact nofun
      · rw [free]
        exact .idle
  | enter running unfinished free =>
      refine ⟨shape, levels, ok.keep (List.nil_subset _) ?_⟩
      rw [running]
      exact .begin
  | acquire running waits available =>
      obtain ⟨unfinished, acquired⟩ := ok.acquired running waits nofun nofun
      refine ⟨shape, levels, ok.grant running unfinished available ?_ (.acquire acquired)⟩
      intro p same
      subst same
      exact ok.wanted_allocated running acquired rfl
  | latch running tries available =>
      obtain ⟨unfinished, acquired⟩ := ok.acquired running tries nofun nofun
      refine ⟨shape, levels, ok.grant running unfinished available ?_ (.latch acquired)⟩
      intro p same
      cases same
      exact ok.wanted_allocated running acquired rfl
  | @miss θ p tries =>
      obtain ⟨call, pc, running, unfinished, acquired⟩ :=
        (ok.worker θ).acquired (by rw [tries]; nofun) (by rw [tries]; nofun)
      rw [tries] at acquired
      refine ⟨shape, levels, ok.keep (List.Subset.refl _) ?_⟩
      rw [running]
      exact .acquiring unfinished (.miss acquired)
  | @hop θ target newest rest hops =>
      obtain ⟨call, pc, running, unfinished, acquired⟩ :=
        (ok.worker θ).acquired (by rw [hops]; nofun) (by rw [hops]; nofun)
      rw [hops] at acquired
      refine ⟨shape, levels, ok.keep ?_ ?_⟩
      · rw [hops]
        exact List.subset_cons_self _ _
      · rw [running]
        exact .acquiring unfinished acquired.of_hop
  | act running acts weak =>
      obtain ⟨t', pc', shape', levels', pass⟩ := ok.perform running acts _
      exact ⟨shape', levels', pass.machineOk ok⟩
  | @load θ call pc running loads =>
      obtain ⟨unfinished, acquired⟩ := ok.acquired running loads nofun nofun
      obtain ⟨-, isLoad⟩ := acquired.load
      have settled : ThreadOk m.system.tree shape {
          m.system.thread θ with
          status := .running call (pc.loaded m.counter)
        } := by
        have ready (cursor : Nat) : ((m.system.thread θ).cursors cursor).Ready := by
          refine (system.thread θ).ready cursor (fun _ _ _ running' => ?_)
          cases running.symm.trans running'
          rcases isLoad with rfl | rfl <;> exact nofun
        rcases isLoad with rfl | rfl <;> exact .of_seek_none trivial (by rintro _ ⟨⟩) rfl rfl ready
      have resting : MachineOk N (m.setWorker θ .resting) shape levels := by
        refine ok.keep (List.nil_subset _) ?_
        rw [running]
        exact .releasing (fun _ => nofun)
      refine ⟨shape, levels, resting.setThread settled ?_⟩
      rw [show (m.setWorker θ .resting).worker θ = .resting from Function.update_self ..]
      exact .releasing (fun _ => nofun)
  | @count θ tally counts =>
      have released : WorkerOk N.size m.system.tree (m.system.thread θ).status
          { m.worker θ with phase := .release } :=
        (ok.worker θ).count counts
      have kept : MachineOk N (m.setWorker θ { m.worker θ with phase := .release }) shape levels :=
        ok.keep (List.Subset.refl _) released
      exact ⟨shape, levels, kept.setCounter _⟩
  | @release θ newest rest releases =>
      refine ⟨shape, levels, ok.keep ?_ (releases ▸ ok.worker θ).release⟩
      rw [releases]
      exact List.subset_cons_self _ _
  | retain done last => exact ⟨shape, levels, ok.retain done trivial last⟩
  | drop retained => exact ⟨shape, levels, ok.dropGuard _⟩

/-- Every reachable state is good. -/
theorem machine_ok (reached : (Machine.transitions ι K V N).Reachable m)
    : ∃ shape levels, MachineOk N m shape levels := by
  refine reached.invariant (I := fun m => ∃ shape levels, MachineOk N m shape levels) ?_ ?_
  · exact fun m initial => ⟨Shape.single, Levels.first, initial.ok⟩
  · intro m action m' _ good step
    obtain ⟨shape, levels, ok⟩ := good
    exact ok.step step

end BLink
