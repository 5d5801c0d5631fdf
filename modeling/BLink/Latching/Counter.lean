import BLink.Latching.Invariant
import BLink.Latching.Schedule
import BLink.Library.Counting

/-! The record counter while threads add and remove records.
A thread counts what it has done after its changes, under the latch of its leaf. Until then
the counter is off by the threads that still have to count.
-/

namespace BLink

open Library

variable {ι K V : Type} [TotalOrd K]

/-- Whether a thread has changed the number of records, and has to count the change. -/
def Worker.Owes (tally : Tally) (worker : Worker) : Prop := worker.phase = .count tally

instance (tally : Tally) : DecidablePred (Worker.Owes tally) :=
  fun worker => inferInstanceAs (Decidable (worker.phase = .count tally))

/-- The threads that have added a record and not counted it, or have removed one. -/
def Machine.pending (m : Machine ι K V) (tally : Tally) : Set ι :=
  {θ | (m.worker θ).Owes tally}

/-- The counter and the pending changes together account for all records. -/
structure Machine.Accounts (m : Machine ι K V) : Prop where
  finite : ∀ tally, (m.pending tally).Finite
  balance
    : m.counter + (m.pending .added).ncard
        = m.system.tree.len + (m.pending .removed).ncard

variable {N : PageCapacity} {m m' : Machine ι K V} {shape : Shape} {levels : Levels PageId}
  {θ : ι}

/-- A thread that counts holds its leaf alone. -/
theorem MachineOk.counting (ok : MachineOk N m shape levels) {tally : Tally}
    (owes : θ ∈ m.pending tally)
    : ∃ p entries,
        (m.worker θ).held = [(.page p, .exclusive)]
        ∧ p < m.system.tree.pages
        ∧ (m.system.tree.page p).kind = .leaf entries
        ∧ (tally = .added → entries ≠ []) := by
  have counts : (m.worker θ).phase = .count tally := owes
  have worker := ok.worker θ
  generalize m.worker θ = current at counts worker
  generalize (m.system.thread θ).status = status at worker
  cases worker with
  | idle => cases counts
  | acquiring _ acquired => cases counts; exact absurd acquired Acquired.not_count
  | counting allocated kind added => cases counts; exact ⟨_, _, rfl, allocated, kind, added⟩
  | releasing => cases counts

/-- There are records for all that threads have added and not counted. -/
theorem MachineOk.added_le (ok : MachineOk N m shape levels) (finite : (m.pending .added).Finite)
    : (m.pending .added).ncard ≤ m.system.tree.len := by
  have inv := ok.arranged.ok.inv
  have holds (θ : ι)
      : ∃ p,
          θ ∈ m.pending .added
          → (.page p, .exclusive) ∈ m.held (some θ)
            ∧ p ∈ shape.row 0
            ∧ 0 < (m.system.tree.entries p).length := by
    by_cases owes : θ ∈ m.pending .added
    · obtain ⟨p, entries, held, allocated, kind, added⟩ := ok.counting owes
      refine ⟨p, fun _ => ⟨?_, inv.mem_of_isLeaf ⟨p, entries, rfl, allocated, kind⟩, ?_⟩⟩
      · show (Latch.page p, Mode.exclusive) ∈ (m.worker θ).held
        rw [held]
        exact List.mem_cons_self
      · rw [Tree.entries, kind]
        exact List.length_pos_iff.mpr (added rfl)
    · exact ⟨0, fun member => absurd member owes⟩
  choose place holds using holds
  have apart : Set.InjOn place (m.pending .added) := by
    intro θ owes other owesToo same
    by_contra differ
    refine ok.exclusive (some θ) (some other) (fun equal => differ (Option.some.inj equal)) _ _
      (holds θ owes).1 (same ▸ (holds other owesToo).1)
  calc
    (m.pending .added).ncard
    _ ≤ ((shape.row 0).map (fun p => (m.system.tree.entries p).length)).sum :=
      ncard_le_sum finite apart (inv.row_nodup 0) (fun θ owes => (holds θ owes).2)
    _ = m.system.tree.len := by rw [inv.count, Tree.records, List.length_flatMap]

/-- A thread that still has to count a removal finds the counter above zero. -/
theorem Machine.Accounts.pos (accounts : m.Accounts) (ok : MachineOk N m shape levels)
    (owes : θ ∈ m.pending .removed)
    : 0 < m.counter := by
  have removed : 0 < (m.pending .removed).ncard :=
    (Set.ncard_pos (accounts.finite .removed)).mpr ⟨θ, owes⟩
  have added := ok.added_le (accounts.finite .added)
  have balance := accounts.balance
  omega

/-- One for a thread that owes a change. -/
def Worker.owed (tally : Tally) (worker : Worker) : Nat := countOne (Worker.Owes tally) worker

theorem Worker.owed_eq_zero {worker : Worker} (tally : Tally)
    (owesNothing : ∀ tally, worker.phase ≠ .count tally)
    : worker.owed tally = 0 :=
  if_neg (owesNothing tally)

variable [DecidableEq ι]

/-- What one thread does keeps the accounts balanced. -/
theorem Machine.Accounts.update {worker : Worker} (accounts : m.Accounts)
    (steps : m'.worker = Function.update m.worker θ worker)
    (balance
      : m'.counter + m.system.tree.len + worker.owed .added + (m.worker θ).owed .removed
        = m.counter + m'.system.tree.len + worker.owed .removed + (m.worker θ).owed .added)
    : m'.Accounts := by
  have before := accounts.balance
  have added := ncard_update (accounts.finite .added) θ worker
  have removed := ncard_update (accounts.finite .removed) θ worker
  have same (tally : Tally)
      : {other | Worker.Owes tally (Function.update m.worker θ worker other)}
        = m'.pending tally := by
    rw [Machine.pending, steps]
  rw [same .added] at added
  rw [same .removed] at removed
  refine ⟨fun tally => ?_, ?_⟩
  · rw [← same tally]
    exact finite_update (accounts.finite tally) θ worker
  · simp only [Worker.owed, Machine.pending] at *
    omega

/-- A thread that neither owes nor counts anything leaves the accounts as they are. -/
theorem Machine.Accounts.keep {worker : Worker} (accounts : m.Accounts)
    (steps : m'.worker = Function.update m.worker θ worker)
    (owedNothing : ∀ tally, (m.worker θ).phase ≠ .count tally)
    (owesNothing : ∀ tally, worker.phase ≠ .count tally) (counter : m'.counter = m.counter)
    (len : m'.system.tree.len = m.system.tree.len)
    : m'.Accounts := by
  refine accounts.update steps ?_
  simp only [Worker.owed_eq_zero _ owedNothing, Worker.owed_eq_zero _ owesNothing, counter, len]

omit [DecidableEq ι] in
/-- What a thread plans after its next latch is not to count. -/
theorem Acquired.plan_ne_count {n : Nat} {t : Tree K V} {pc : Pc K V}
    {held : List (Latch × Mode)} (acquired : Acquired n t pc held (t.plan n pc held))
    (tally : Tally)
    : t.plan n pc held ≠ .count tally :=
  fun counts => Acquired.not_count (counts ▸ acquired)

/-- A section owes the counter exactly what it has done to the records. -/
theorem LatchedPass.accounts {latched upgraded : Bool} {call : Call K V} {pc pc' : Pc K V}
    {t' : Tree K V} {shape' : Shape} {levels' : Levels PageId}
    (pass : LatchedPass N m shape levels θ latched upgraded m' call pc t' pc' shape' levels')
    (acts : (m.worker θ).phase = .act latched) (counter : m'.counter = m.counter)
    (accounts : m.Accounts)
    : m'.Accounts := by
  apply accounts.update pass.worker
  have before (tally : Tally) : (m.worker θ).owed tally = 0 :=
    Worker.owed_eq_zero tally (by rw [acts]; exact nofun)
  rw [before .added, before .removed, pass.tree_eq, counter]
  have change : t'.len = m.system.tree.len ∨ t'.len = m.system.tree.len + 1
      ∨ t'.len + 1 = m.system.tree.len := by
    rcases pass.passed.effect.counts with same | ⟨p, old, new, -, updated, changes⟩
    · exact .inl same
    · have len := updated.len
      omega
  rcases change with same | more | fewer
  · simp [Worker.owed, countOne, Worker.Owes, same, Phase.publish_same]
  · simp [Worker.owed, countOne, Worker.Owes, Phase.publish, more]
    omega
  · have notMore : ¬ t'.len = m.system.tree.len + 1 := by omega
    simp [Worker.owed, countOne, Worker.Owes, Phase.publish, fewer, notMore]
    omega

/-- Every step keeps the accounts balanced. -/
theorem Machine.Accounts.step {action : Action ι K V} (accounts : m.Accounts)
    (ok : MachineOk N m shape levels)
    (step : (Machine.transitions ι K V N).step m action m')
    : m'.Accounts := by
  have rests {θ : ι} (free : m.worker θ = .resting) (tally : Tally)
      : (m.worker θ).phase ≠ .count tally := by
    rw [free]
    intro same
    cases same
  cases step with
  | @invoke θ call idle =>
      have resting : m.worker θ = .resting := by
        have worker := ok.worker θ
        rw [idle] at worker
        generalize m.worker θ = current at worker
        cases worker
        rfl
      exact accounts.keep rfl (rests resting) (Acquired.plan_ne_count .enter) rfl rfl
  | respond done free => exact ⟨accounts.finite, accounts.balance⟩
  | enter running unfinished free =>
      exact accounts.keep rfl (rests free) (Acquired.plan_ne_count .enter) rfl rfl
  | acquire running waits available =>
      obtain ⟨-, acquired⟩ := ok.acquired running waits (by simp) (by simp)
      exact accounts.keep rfl (by simp [waits])
        (Acquired.plan_ne_count (.acquire acquired)) rfl rfl
  | latch running tries available =>
      obtain ⟨-, acquired⟩ := ok.acquired running tries (by simp) (by simp)
      exact accounts.keep rfl (by simp [tries])
        (Acquired.plan_ne_count (.latch acquired)) rfl rfl
  | miss tries => exact accounts.keep rfl (by simp [tries]) (by simp) rfl rfl
  | hop hops => exact accounts.keep rfl (by simp [hops]) (by simp) rfl rfl
  | @act θ call pc latched upgraded running acts weak =>
      obtain ⟨t', pc', shape', levels', pass⟩ := ok.perform running acts upgraded
      exact pass.accounts acts rfl accounts
  | load running loads => exact accounts.keep rfl (by simp [loads]) (by simp [Worker.resting]) rfl rfl
  | @count θ tally counts =>
      refine accounts.update rfl ?_
      cases tally with
      | added => simp [Worker.owed, countOne, Worker.Owes, counts, Tally.update, setWorker]; omega
      | removed =>
          have pos := accounts.pos ok counts
          simp [Worker.owed, countOne, Worker.Owes, counts, Tally.update, setWorker, pos.ne']
          omega
  | release releases => exact accounts.keep rfl (by simp [releases]) (by simp) rfl rfl
  | retain done last => exact accounts.keep rfl (by simp [last]) (by simp [Worker.resting]) rfl rfl
  | drop retained => exact ⟨accounts.finite, accounts.balance⟩

/-- The accounts are balanced in every reachable state. -/
theorem accounts_balanced (reached : (Machine.transitions ι K V N).Reachable m) : m.Accounts := by
  refine reached.invariant (I := Machine.Accounts) ?_ ?_
  · intro m initial
    have nobody (tally : Tally) : m.pending tally = ∅ := by
      refine Set.eq_empty_of_forall_notMem (fun θ owes => ?_)
      have counts : (m.worker θ).phase = .count tally := owes
      rw [initial.worker θ] at counts
      cases counts
    refine ⟨fun tally => ?_, ?_⟩
    · rw [nobody tally]
      exact Set.finite_empty
    · rw [nobody .added, nobody .removed, initial.counter, initial.system.tree]
      rfl
  · intro m action m' reached accounts step
    obtain ⟨shape, levels, ok⟩ := machine_ok reached
    exact accounts.step ok step

/-- The counter is the number of records in the leaves, less what threads have added and not
counted, and with what they have removed and not counted. It is exact while no thread has a
leaf latched exclusively, a removal is never taken off a counter of zero, and sections that
leave the number of records as it is have nothing to count.
-/
theorem counter_accounting (reached : (Machine.transitions ι K V N).Reachable m)
    : ∃ shape,
        Inv N.size m.system.tree shape
        ∧ (∀ tally, (m.pending tally).Finite)
        ∧ (m.counter : Int)
            = (m.system.tree.records shape).length - (m.pending .added).ncard
              + (m.pending .removed).ncard
        ∧ (∀ θ, θ ∈ m.pending .removed → 0 < m.counter)
        ∧ ((∀ θ latch,
              (latch, .exclusive) ∈ (m.worker θ).held → ¬ m.system.tree.IsLeaf latch)
            → m.counter = (m.system.tree.records shape).length)
        ∧ ∀ action m',
            (Machine.transitions ι K V N).step m action m'
            → ((∀ θ, action ≠ .count θ) → m'.counter = m.counter)
              ∧ ∀ θ upgraded shape',
                  action = .act θ upgraded
                  → Inv N.size m'.system.tree shape'
                  → (m'.system.tree.records shape').length
                      = (m.system.tree.records shape).length
                  → ∀ tally, θ ∉ m'.pending tally := by
  obtain ⟨shape, levels, ok⟩ := machine_ok reached
  have accounts := accounts_balanced reached
  have inv := ok.arranged.ok.inv
  have balance := accounts.balance
  rw [inv.count] at balance
  refine ⟨shape, inv, accounts.finite, by omega, fun θ => accounts.pos ok, ?_, ?_⟩
  · intro noWriter
    have nobody (tally : Tally) : m.pending tally = ∅ := by
      refine Set.eq_empty_of_forall_notMem (fun θ owes => ?_)
      obtain ⟨p, entries, held, allocated, kind, -⟩ := ok.counting owes
      apply noWriter θ (.page p)
      · rw [held]
        exact List.mem_cons_self
      · exact ⟨p, entries, rfl, allocated, kind⟩
    rw [nobody .added, nobody .removed, Set.ncard_empty] at balance
    omega
  · intro action m' step
    refine ⟨fun notCount => ?_, ?_⟩
    · cases step with
      | count counts => exact absurd rfl (notCount _)
      | _ => rfl
    · intro θ upgraded shape' isAct inv' same tally owes
      subst isAct
      cases step with
      | @act _ call pc latched _ running acts weak =>
          obtain ⟨t', pc', _, _, pass⟩ := ok.perform running acts upgraded
          have counts : ((m.perform N θ call latched upgraded pc).worker θ).phase
              = .count tally := owes
          have len := inv'.count
          rw [same, ← inv.count, pass.tree_eq] at len
          rw [pass.worker, Function.update_self, len, Phase.publish_same] at counts
          cases counts

/-- A thread has removed the only record, and not counted it yet. -/
theorem counter_accounting_removed
    : ∃ (m : Machine (Fin 2) Nat Nat) (shape : Shape),
        Inv PageCapacity.smallest.size m.system.tree shape
        ∧ (0 : Fin 2) ∈ m.pending .removed
        ∧ (m.counter : Int)
            = (m.system.tree.records shape).length - (m.pending .added).ncard
              + (m.pending .removed).ncard
        ∧ 0 < m.counter := by
  have plays : ((Machine.fresh : Machine (Fin 2) Nat Nat).replay .smallest [0, 1]
      (Turn.whole 0 (.insert 1 1) 13
        ++ .invoke 0 (.remove (.ofKey 1)) :: List.replicate 10 (.advance 0))).map
        (fun played => (played.2.worker 0).phase)
      = some (.count .removed) := by
    decide +kernel
  obtain ⟨⟨trace, m⟩, replayed, owes⟩ := Option.map_eq_some_iff.mp plays
  obtain ⟨shape, inv, -, balance, pos, -⟩ :=
    counter_accounting (Machine.reachable_of_replay (by decide) replayed)
  exact ⟨m, shape, inv, owes, balance, pos 0 owes⟩

end BLink
