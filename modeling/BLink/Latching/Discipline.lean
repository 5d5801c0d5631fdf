import BLink.Latching.Invariant
import BLink.Latching.Schedule

/-! How many latches an operation holds.
A read or a lookup for a write has one latch at a time. A structural writer has a parent and one
child, or two adjacent children, or the pages whose links it repairs. Nobody waits for the root
slot while it holds a page.
-/

namespace BLink

open Library

variable {ι K V : Type} [TotalOrd K]

/-- The most latches that a call ever holds at once. -/
def Call.mostLatches : Call K V → Nat
  | .insert _ _ => 2
  | .remove _ => 3
  | .get _ | .containsKey _ | .getMut _ _ | .firstKeyValue | .lastKeyValue | .len | .isEmpty
  | .next _ => 1

/-- The modes in which a call latches the root slot and pages: a lookup shares all of them, and
`get_mut` shares the root slot.
-/
def Call.mayHold : Call K V → Latch × Mode → Prop
  | .insert _ _, _ | .remove _, _ => True
  | .getMut _ _, holding => holding.1 = .slot → holding.2 = .shared
  | .get _, holding | .containsKey _, holding | .firstKeyValue, holding
  | .lastKeyValue, holding | .len, holding | .isEmpty, holding | .next _, holding =>
      holding.2 = .shared

/-- The latches that a call may hold together. -/
structure Call.Disciplined (call : Call K V) (held : List (Latch × Mode)) : Prop where
  few : held.length ≤ call.mostLatches
  modes : ∀ holding ∈ held, call.mayHold holding

variable {N : Nat} {t : Tree K V} {call : Call K V} {pc : Pc K V} {held fewer : List (Latch × Mode)}
  {phase : Phase}

theorem Call.Disciplined.nil : call.Disciplined [] := ⟨Nat.zero_le _, by simp⟩

theorem Call.Disciplined.sublist (disciplined : call.Disciplined held)
    (sublist : fewer.Sublist held)
    : call.Disciplined fewer :=
  ⟨Nat.le_trans sublist.length_le disciplined.few,
    fun holding member => disciplined.modes holding (sublist.subset member)⟩

theorem Call.one_le_mostLatches : 1 ≤ call.mostLatches := by
  cases call <;> simp [mostLatches]

/-- A single latch is one that the call may hold. -/
theorem Call.Disciplined.single {latch : Latch} {mode : Mode}
    (sole : pc.soleLatch = some (latch, mode)) (serves : ∀ served ∈ pc.serves, served = call)
    : call.Disciplined [(latch, mode)] := by
  refine ⟨one_le_mostLatches, fun holding member => ?_⟩
  obtain rfl := List.mem_singleton.mp member
  cases pc with
  | leafRoot task | leafRead task =>
      cases sole
      cases serves _ rfl
      rcases task with (_ | _ | _) | (_ | _ | _) <;> simp [Task.call, mayHold]
  | leafWrite task =>
      cases sole
      cases serves _ rfl
      cases task <;> simp [Task.call, mayHold]
  | leftmostRoot consumer | leftmostLeaf consumer | firstEntry consumer =>
      cases sole
      cases serves _ rfl
      cases consumer <;> simp [firstCall, mayHold]
  | seekRight | rightmostRoot | rightmostLeaf | lastEntry | insertRoot | removeRoot | mergeClear =>
      cases sole
      cases serves _ rfl
      simp [mayHold]
  | _ => cases sole

/-- Whatever a thread has acquired of its section, its call may hold. -/
theorem Stage.disciplined (stage : Stage N t pc held phase)
    (serves : ∀ served ∈ pc.serves, served = call)
    : call.Disciplined held := by
  cases stage with
  | first => exact .nil
  | sole sole => exact .single sole serves
  | _ =>
      cases serves _ rfl
      exact ⟨by simp [Call.mostLatches], fun _ _ => trivial⟩

/-- A thread that waits for the root slot holds nothing. -/
theorem Stage.held_of_slot {mode : Mode} (stage : Stage N t pc held (.await .slot mode))
    : held = [] := by
  generalize waits : Phase.await .slot mode = phase at stage
  cases stage with
  | first => rfl
  | _ => cases waits

variable {capacity : PageCapacity} {m m' : Machine ι K V} {shape : Shape} {levels : Levels PageId}
  {θ : ι}

/-- Every thread holds what its call may hold, and an idle thread nothing. -/
def Machine.Disciplined (m : Machine ι K V) : Prop :=
  ∀ θ,
    match (m.system.thread θ).status with
    | .idle => (m.worker θ).held = []
    | .running call _ => call.Disciplined (m.worker θ).held

theorem Machine.Disciplined.running (disciplined : m.Disciplined)
    (running : (m.system.thread θ).status = .running call pc)
    : call.Disciplined (m.worker θ).held := by
  have mine := disciplined θ
  rwa [running] at mine

/-- A thread that holds a latch is in the middle of a call. -/
theorem MachineOk.running_of_held (ok : MachineOk capacity m shape levels) (θ : ι)
    : (m.worker θ).held = []
      ∨ ∃ call pc, (m.system.thread θ).status = .running call pc := by
  have worker := ok.worker θ
  cases status : (m.system.thread θ).status with
  | idle =>
      rw [status] at worker
      generalize m.worker θ = current at worker
      cases worker
      exact .inl rfl
  | running call pc => exact .inr ⟨call, pc, rfl⟩

/-- When one thread goes on with its call and acquires no latch, or has none at all, everybody
keeps to what calls may hold.
-/
theorem Machine.Disciplined.keep (disciplined : m.Disciplined)
    (others
      : ∀ other,
          other ≠ θ
          → m'.system.thread other = m.system.thread other ∧ m'.worker other = m.worker other)
    (mine
      : (m'.worker θ).held = []
        ∨ (m'.worker θ).held.Sublist (m.worker θ).held
          ∧ ∃ call pc pc',
              (m.system.thread θ).status = .running call pc
              ∧ (m'.system.thread θ).status = .running call pc')
    : m'.Disciplined := by
  intro other
  by_cases same : other = θ
  · subst same
    rcases mine with nothing | ⟨sublist, call, pc, pc', before, after⟩
    · cases (m'.system.thread other).status with
      | idle => exact nothing
      | running call pc =>
          show call.Disciplined _
          rw [nothing]
          exact .nil
    · rw [after]
      exact (disciplined.running before).sublist sublist
  · obtain ⟨thread, worker⟩ := others other same
    rw [thread, worker]
    exact disciplined other

variable [DecidableEq ι]

/-- A thread may give up latches. -/
theorem Machine.Disciplined.setWorker {worker : Worker} (disciplined : m.Disciplined)
    (ok : MachineOk capacity m shape levels) (sublist : worker.held.Sublist (m.worker θ).held)
    : (m.setWorker θ worker).Disciplined := by
  refine disciplined.keep (fun other differs => ⟨rfl, Function.update_of_ne differs ..⟩) ?_
  rw [show (m.setWorker θ worker).worker θ = worker from Function.update_self ..]
  rcases ok.running_of_held θ with nothing | ⟨call, pc, running⟩
  · rw [nothing] at sublist
    exact .inl (List.sublist_nil.mp sublist)
  · exact .inr ⟨sublist, call, pc, pc, running, running⟩

/-- A thread acquires the next latch of its section. -/
theorem Machine.Disciplined.grant {latch : Latch} {mode : Mode} (disciplined : m.Disciplined)
    (ok : MachineOk capacity m shape levels)
    (running : (m.system.thread θ).status = .running call pc)
    (acquired
      : Acquired capacity.size m.system.tree pc ((latch, mode) :: (m.worker θ).held) phase)
    : (m.grant capacity θ pc latch mode).Disciplined := by
  intro other
  by_cases mine : other = θ
  · subst mine
    have after : ((m.grant capacity other pc latch mode).system.thread other).status
        = .running call pc :=
      running
    have worker : (m.grant capacity other pc latch mode).worker other = {
          held := (latch, mode) :: (m.worker other).held
          phase := m.system.tree.plan capacity.size pc ((latch, mode) :: (m.worker other).held)
        } :=
      Function.update_self ..
    rw [after, worker]
    exact acquired.stage.disciplined ((ok.arranged.ok.thread other).serves call pc running)
  · have same : (m.grant capacity θ pc latch mode).worker other = m.worker other :=
      Function.update_of_ne mine ..
    rw [same]
    exact disciplined other

/-- Every step keeps all threads to what their calls may hold. -/
theorem Machine.Disciplined.step {action : Action ι K V} (disciplined : m.Disciplined)
    (ok : MachineOk capacity m shape levels)
    (step : (Machine.transitions ι K V capacity).step m action m')
    : m'.Disciplined := by
  cases step with
  | @invoke θ call idle =>
      refine disciplined.keep
        (fun other differs =>
          ⟨System.setThread_other _ _ differs, Function.update_of_ne differs ..⟩)
        (.inl ?_)
      rw [show (Machine.worker _ θ) = { held := [], phase := _ } from Function.update_self ..]
  | @respond θ call response done free =>
      refine disciplined.keep (fun other differs => ⟨System.setThread_other _ _ differs, rfl⟩)
        (.inl ?_)
      exact congrArg Worker.held free
  | enter => exact disciplined.setWorker ok (List.nil_sublist _)
  | acquire running waits available =>
      obtain ⟨-, acquired⟩ := ok.acquired running waits (by simp) (by simp)
      exact disciplined.grant ok running (.acquire acquired)
  | latch running tries available =>
      obtain ⟨-, acquired⟩ := ok.acquired running tries (by simp) (by simp)
      exact disciplined.grant ok running (.latch acquired)
  | miss => exact disciplined.setWorker ok (.refl _)
  | hop hops =>
      refine disciplined.setWorker ok ?_
      rw [hops]
      exact List.sublist_cons_self _ _
  | @act θ call pc latched upgraded running acts weak =>
      obtain ⟨t', pc', shape', levels', pass⟩ := ok.perform running acts upgraded
      obtain ⟨pc'', resumes, -⟩ := (m.system.thread θ).resume_running call pc'
      refine disciplined.keep (fun other differs => ⟨?_, Function.update_of_ne differs ..⟩)
        (.inr ⟨?_, call, pc, pc'', running, ?_⟩)
      · rw [pass.passed.target]
        exact System.setThread_other _ _ differs
      · rw [show ((m.perform capacity θ call latched upgraded pc).worker θ).held
          = (m.worker θ).held from congrFun pass.held_eq (some θ)]
      · rw [pass.passed.target]
        exact (congrArg Thread.status (System.setThread_same ..)).trans resumes
  | @load θ call pc running loads =>
      refine disciplined.keep
        (fun other differs =>
          ⟨System.setThread_other _ _ differs, Function.update_of_ne differs ..⟩)
        (.inl ?_)
      rw [show (Machine.worker _ θ) = .resting from Function.update_self ..]
      rfl
  | @count θ tally counts =>
      have kept : (m.setWorker θ { m.worker θ with phase := .release }).Disciplined :=
        disciplined.setWorker ok (.refl _)
      exact kept
  | release releases =>
      refine disciplined.setWorker ok ?_
      rw [releases]
      exact List.sublist_cons_self _ _
  | @retain θ call entry holding done last =>
      have kept : (m.setWorker θ .resting).Disciplined :=
        disciplined.setWorker ok (List.nil_sublist _)
      exact kept
  | drop => exact disciplined

/-- In every state of every interleaving of single latch steps, each call holds no more latches
than it may: a lookup one shared latch, an insertion two, a removal three; an idle thread none. A
thread that waits for the root slot holds nothing. The latch of a leaf that a public guard retains
is the guard's, and does not count as held by a thread.
-/
theorem latches_disciplined (reached : (Machine.transitions ι K V capacity).Reachable m)
    : m.Disciplined
      ∧ ∀ θ mode, (m.worker θ).phase = .await .slot mode → (m.worker θ).held = [] := by
  obtain ⟨shape, levels, ok⟩ := machine_ok reached
  constructor
  · refine reached.invariant (I := fun m => m.Disciplined) ?_ ?_
    · intro m initial θ
      rw [initial.system.idle θ, initial.worker θ]
      rfl
    · intro m action m' earlier disciplined step
      obtain ⟨shape, levels, ok⟩ := machine_ok earlier
      exact disciplined.step ok step
  · intro θ mode waits
    obtain ⟨call, pc, -, -, acquired⟩ := (ok.worker θ).acquired (by simp [waits]) (by simp [waits])
    rw [waits] at acquired
    exact acquired.stage.held_of_slot

/-- A removal holds a page together with two children. -/
theorem latches_disciplined_three
    : ∃ m : Machine (Fin 2) Nat Nat,
        (m.worker 0).held.length = 3
        ∧ m.Disciplined
        ∧ ∀ θ mode, (m.worker θ).phase = .await .slot mode → (m.worker θ).held = [] := by
  have plays : ((Machine.fresh : Machine (Fin 2) Nat Nat).replay .smallest [0, 1]
      (Turn.whole 0 (.insert 10 10) 13 ++ Turn.whole 0 (.insert 20 20) 13
        ++ Turn.whole 0 (.insert 30 30) 13 ++ Turn.whole 0 (.insert 40 40) 35
        ++ .invoke 0 (.remove (.ofKey 10)) :: List.replicate 29 (.advance 0))).map
        (fun played => (played.2.worker 0).held.length)
      = some 3 := by
    decide +kernel
  obtain ⟨⟨trace, m⟩, replayed, three⟩ := Option.map_eq_some_iff.mp plays
  exact ⟨m, three, latches_disciplined (Machine.reachable_of_replay (by decide) replayed)⟩

end BLink
