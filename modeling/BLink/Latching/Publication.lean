import BLink.Latching.Counter
import BLink.Latching.Owners
import BLink.Library.Linearizability

/-! What threads have published that acquire one latch at a time.
An insertion or a removal that changes the number of records shows when it is counted, under the
latch of its leaf; every other change shows at once. So the map that shows always has as many
records as the counter says.
-/

namespace BLink

open Library

variable {ι K V : Type} [TotalOrd K]

-----------------------------------------------------------------------------------------
-- Operations on the current and on the published map
-----------------------------------------------------------------------------------------

/-- How an operation that has taken effect on the current map shows on the published map: with
the same result, or only when it is counted.
-/
inductive Shows (owed : ι → Option (Change K V)) (current published : SortedMap K V)
    (call : Call K V) (response : Response K V)
    : SortedMap K V → Prop
  | now {current' published'} (applies : Applies call published response published')
    (lags : Lags owed current' published') (size : current'.size = current.size)
    (shown : published'.size = published.size)
    : Shows owed current published call response current'
  | added {key value} (isInsert : call = .insert key value)
    (replaces : response = .previous none) (missing : current.find? (.ofKey key) = none)
    : Shows owed current published call response (current.insert key value)
  | removed {key record} (isRemove : call = .remove key)
    (removes : response = .previous (some record.2)) (found : current.find? key = some record)
    : Shows owed current published call response (current.erase key)

/-- An operation on a key that no owed change is about shows on the published map. -/
theorem Shows.of_lags {owed : ι → Option (Change K V)} {current current' published : SortedMap K V}
    (lags : Lags owed current published) {call : Call K V} {key : Query K}
    (keyed : call.key? = some key) (free : Free owed key) {response : Response K V}
    (applies : Applies call current response current')
    : Shows owed current published call response current' := by
  have same := lags.find?_eq free
  cases call with
  | get | containsKey =>
      cases keyed
      obtain ⟨rfl, result⟩ := applies
      rw [← same] at result
      exact .now ⟨rfl, result⟩ lags rfl rfl
  | getMut _ write =>
      cases keyed
      obtain ⟨rfl, result⟩ := applies
      rw [← same] at result
      refine .now ⟨rfl, result⟩ ?_ (SortedMap.size_modify ..) (SortedMap.size_modify ..)
      refine lags.both free (.modify _ _ _) (.modify _ _ _) (fun other equal => ?_)
      rw [SortedMap.find?_modify_same _ write equal, SortedMap.find?_modify_same _ write equal,
        ← Query.eq_ofKey equal, same]
  | insert key value =>
      cases keyed
      obtain ⟨rfl, result⟩ := applies
      cases found : current.find? (.ofKey key) with
      | none =>
          rw [found] at result
          exact .added rfl result found
      | some old =>
          rw [← same] at result
          refine .now ⟨rfl, result⟩ ?_ (SortedMap.size_insert_of_found found)
            (SortedMap.size_insert_of_found (same.trans found))
          refine lags.both free (.insert _ _ _) (.insert _ _ _) (fun other equal => ?_)
          rw [← Query.eq_ofKey equal, SortedMap.find?_insert_same, SortedMap.find?_insert_same, same]
  | remove key =>
      cases keyed
      obtain ⟨rfl, result⟩ := applies
      cases found : current.find? key with
      | none =>
          rw [SortedMap.erase_of_missing found]
          rw [← same] at result
          rw [found] at same
          exact .now ⟨(SortedMap.erase_of_missing same).symm, result⟩ lags rfl rfl
      | some record =>
          rw [found] at result
          exact .removed rfl result found
  | firstKeyValue | lastKeyValue | len | isEmpty | next => cases keyed

-----------------------------------------------------------------------------------------
-- The published map
-----------------------------------------------------------------------------------------

/-- What a thread has done to the records and not counted yet, under the latch of a leaf whose
fences enclose the record's key.
-/
inductive Owing (m : Machine ι K V) (θ : ι) : Option (Change K V) → Prop
  | settled (settled : ∀ tally, (m.worker θ).phase ≠ .count tally) : Owing m θ none
  | added {key value pc p}
    (running : (m.system.thread θ).status = .running (.insert key value) pc)
    (result : pc.result = some (.previous none))
    (worker : m.worker θ = { held := [(.page p, .exclusive)], phase := .count .added })
    (covers : Covers (m.system.tree.low p) (m.system.tree.high p) (.ofKey key))
    : Owing m θ (some (.added (key, value)))
  | removed {key pc p record}
    (running : (m.system.thread θ).status = .running (.remove key) pc)
    (result : pc.result = some (.previous (some record.2)))
    (worker : m.worker θ = { held := [(.page p, .exclusive)], phase := .count .removed })
    (covers : Covers (m.system.tree.low p) (m.system.tree.high p) (.ofKey record.1))
    (equal : key.cmp record.1 = .eq)
    : Owing m θ (some (.removed record))

/-- The published map is the map in the leaves but for the changes that are not counted yet, and
has as many records as the counter says.
-/
structure Publishes (N : PageCapacity) (m : Machine ι K V) (shape : Shape)
    (levels : Levels PageId) (owed : ι → Option (Change K V))
    (current published : SortedMap K V)
    : Prop where
  ok : MachineOk N m shape levels
  represents : Represents m.system.tree shape current
  lags : Lags owed current published
  counter : published.size = m.counter
  owes : ∀ θ, Owing m θ (owed θ)

variable {m m' : Machine ι K V} {θ : ι} {change : Change K V}

/-- What a thread owes depends on its status, its latches and the fences of its leaf. -/
theorem Owing.congr {owed : Option (Change K V)} (owing : Owing m θ owed)
    (thread : m'.system.thread θ = m.system.thread θ) (worker : m'.worker θ = m.worker θ)
    (agree : Agree m.system.tree m'.system.tree (m.worker θ).held)
    : Owing m' θ owed := by
  have fences {p : PageId} {tally : Tally} {key : Query K}
      (holds : m.worker θ = { held := [(.page p, .exclusive)], phase := .count tally })
      (covers : Covers (m.system.tree.low p) (m.system.tree.high p) key)
      : Covers (m'.system.tree.low p) (m'.system.tree.high p) key := by
    rw [holds] at agree
    rwa [Tree.low, Tree.high, agree.page p .exclusive List.mem_cons_self]
  cases owing with
  | settled settled => exact .settled (by rwa [worker])
  | added running result holds covers =>
      exact .added (by rwa [thread]) result (by rwa [worker]) (fences holds covers)
  | removed running result holds covers equal =>
      exact .removed (by rwa [thread]) result (by rwa [worker]) (fences holds covers) equal

/-- A thread that owes a change holds a leaf whose fences enclose the change's key. -/
theorem Owing.leaf (owing : Owing m θ (some change))
    : ∃ p tally,
        m.worker θ = { held := [(.page p, .exclusive)], phase := .count tally }
        ∧ Covers (m.system.tree.low p) (m.system.tree.high p) (.ofKey change.key) := by
  cases owing with
  | added _ _ worker covers | removed _ _ worker covers => exact ⟨_, _, worker, covers⟩

/-- A thread that does not count owes nothing. -/
theorem Owing.eq_none {owed : Option (Change K V)} (owing : Owing m θ owed)
    (settled : ∀ tally, (m.worker θ).phase ≠ .count tally)
    : owed = none := by
  cases owing with
  | settled => rfl
  | added _ _ worker | removed _ _ worker => exact absurd (congrArg Worker.phase worker) (settled _)

namespace Publishes

variable {N : PageCapacity} {shape : Shape} {levels : Levels PageId}
  {owed : ι → Option (Change K V)} {current published : SortedMap K V}

/-- A thread that owes a change holds a leaf of the tree exclusively. -/
theorem leaf (publishes : Publishes N m shape levels owed current published)
    (owes : owed θ = some change)
    : ∃ p ∈ shape.row 0,
        (.page p, .exclusive) ∈ m.held (some θ)
        ∧ Covers (m.system.tree.low p) (m.system.tree.high p) (.ofKey change.key) := by
  have owing := publishes.owes θ
  rw [owes] at owing
  obtain ⟨p, tally, worker, covers⟩ := owing.leaf
  have pending : θ ∈ m.pending tally := congrArg Worker.phase worker
  obtain ⟨q, entries, held, allocated, kind, -⟩ := publishes.ok.counting pending
  rw [worker] at held
  cases held
  refine ⟨p, publishes.ok.arranged.ok.inv.mem_of_isLeaf ⟨p, entries, rfl, allocated, kind⟩, ?_,
    covers⟩
  show (Latch.page p, Mode.exclusive) ∈ (m.worker θ).held
  rw [worker]
  exact List.mem_cons_self

/-- Nobody owes a change of a key whose leaf somebody else has latched. -/
theorem free (publishes : Publishes N m shape levels owed current published) {p : PageId}
    {key : Query K} {mode : Mode} (member : p ∈ shape.row 0)
    (covers : Covers (m.system.tree.low p) (m.system.tree.high p) key) (holder : Option ι)
    (latched : (.page p, mode) ∈ m.held holder) (settled : ∀ θ ∈ holder, owed θ = none)
    : Free owed key := by
  intro other change owes equal
  obtain ⟨q, inRow, held, within⟩ := publishes.leaf owes
  have same : q = p :=
    publishes.ok.arranged.ok.inv.owner_unique inRow member (Query.eq_ofKey equal ▸ within) covers
  subst same
  refine publishes.ok.exclusive (some other) holder ?_ _ _ held latched
  intro mine
  rw [settled other mine.symm] at owes
  cases owes

end Publishes

-----------------------------------------------------------------------------------------
-- What the threads' calls have come to
-----------------------------------------------------------------------------------------

/-- The operations that look at the map once: all but `last_key_value` and the iterators. -/
def Call.isAtomic : Call K V → Bool
  | .get _ | .containsKey _ | .getMut _ _ | .insert _ _ | .remove _ | .firstKeyValue | .len
  | .isEmpty => true
  | .lastKeyValue | .next _ => false

/-- The invocation or response of an operation that looks at the map once. -/
def atomicEvent : Action ι K V → Option (Event ι (Call K V) (Response K V))
  | .invoke θ call => if call.isAtomic then some (.invoke θ call) else none
  | .respond θ call response => if call.isAtomic then some (.respond θ response) else none
  | _ => none

/-- The thread has a change to count. -/
def Phase.counts : Phase → Bool
  | .count _ => true
  | _ => false

/-- What a call has come to: one that has a change to count has not taken effect yet. -/
def Status.observed (counts : Bool) : Status K V → CallStatus (Call K V) (Response K V)
  | .idle => .idle
  | .running call pc =>
      if call.isAtomic then
        match pc.result with
        | none => .pending call
        | some response => if counts then .pending call else .decided call response
      else
        .idle

/-- What the calls of all threads have come to. -/
def Machine.observed (m : Machine ι K V) (θ : ι) : CallStatus (Call K V) (Response K V) :=
  (m.system.thread θ).status.observed (m.worker θ).phase.counts

theorem Call.isAtomic_of_key {call : Call K V} {key : Query K} (keyed : call.key? = some key)
    : call.isAtomic = true := by
  cases call with
  | get | containsKey | getMut | insert | remove | firstKeyValue | len | isEmpty => rfl
  | lastKeyValue | next => cases keyed

theorem Phase.counts_eq_false {phase : Phase} (settled : ∀ tally, phase ≠ .count tally)
    : phase.counts = false := by
  cases phase with
  | count tally => exact absurd rfl (settled tally)
  | _ => rfl

/-- A call begins without a result, unless it is the call of an exhausted iterator. -/
theorem Call.begin_observed (call : Call K V) (cursors : Nat → Cursor K)
    : (Status.running call (call.begin cursors).2).observed false
      = if call.isAtomic then .pending call else .idle := by
  cases call <;> rfl

/-- A cursor's call is never observed. -/
theorem Thread.resume_observed (thread : Thread K V) {call : Call K V} (pc : Pc K V)
    (serves : ∀ served ∈ pc.serves, served = call) (counts : Bool)
    : (thread.resume call pc).status.observed counts = (Status.running call pc).observed counts := by
  cases pc with
  | candidate cursor found =>
      obtain rfl := serves _ rfl
      rfl
  | _ => rfl

/-- At most one thread's program and latches change. -/
structure OnlyThread (m m' : Machine ι K V) (θ : ι) : Prop where
  thread : ∀ other, other ≠ θ → m'.system.thread other = m.system.thread other
  worker : ∀ other, other ≠ θ → m'.worker other = m.worker other

variable [DecidableEq ι]

theorem OnlyThread.observed (only : OnlyThread m m' θ)
    : m'.observed = Function.update m.observed θ (m'.observed θ) := by
  funext other
  by_cases mine : other = θ
  · subst mine
    rw [Function.update_self]
  · rw [Function.update_of_ne mine, Machine.observed, only.thread other mine,
      only.worker other mine]
    rfl

/-- A step that leaves the thread's call where it is shows nothing. -/
theorem OnlyThread.internal (only : OnlyThread m m' θ) (same : m'.observed θ = m.observed θ)
    (published : SortedMap K V)
    : PointStep Applies m.observed published none m'.observed published := by
  rw [only.observed, same, Function.update_eq_self]
  exact .internal

/-- A step that gives the thread's call its result shows what the call does to the map. -/
theorem OnlyThread.point (only : OnlyThread m m' θ) {call : Call K V} {response : Response K V}
    {published published' : SortedMap K V} (before : m.observed θ = .pending call)
    (after : m'.observed θ = .decided call response)
    (applies : Applies call published response published')
    : PointStep Applies m.observed published none m'.observed published' := by
  rw [only.observed, after]
  exact .point before applies

-----------------------------------------------------------------------------------------
-- What each step publishes
-----------------------------------------------------------------------------------------

/-- The map is what all threads together have published. -/
def Machine.Published (N : PageCapacity) (m : Machine ι K V) (published : SortedMap K V)
    : Prop :=
  ∃ shape levels owed current, Publishes N m shape levels owed current published

namespace Publishes

variable {N : PageCapacity} {shape shape' : Shape} {levels levels' : Levels PageId}
  {owed : ι → Option (Change K V)} {owes : Option (Change K V)}
  {current current' published published' : SortedMap K V}

/-- A step of one thread, after which the thread may owe something else. -/
theorem step (publishes : Publishes N m shape levels owed current published)
    (only : OnlyThread m m' θ)
    (agree : ∀ other, other ≠ θ → Agree m.system.tree m'.system.tree (m.held (some other)))
    (ok : MachineOk N m' shape' levels') (represents : Represents m'.system.tree shape' current')
    (lags : Lags (Function.update owed θ owes) current' published')
    (counter : published'.size = m'.counter) (mine : Owing m' θ owes)
    : m'.Published N published' := by
  refine ⟨shape', levels', Function.update owed θ owes, current', ok, represents, lags, counter, ?_⟩
  intro other
  by_cases isMine : other = θ
  · subst isMine
    rw [Function.update_self]
    exact mine
  · rw [Function.update_of_ne isMine]
    exact (publishes.owes other).congr (only.thread other isMine) (only.worker other isMine)
      (agree other isMine)

/-- A step in which nothing is changed, counted or published. -/
theorem quiet (publishes : Publishes N m shape levels owed current published)
    (only : OnlyThread m m' θ) (ok : ∃ shape levels, MachineOk N m' shape levels)
    (tree : m'.system.tree = m.system.tree) (counter : m'.counter = m.counter)
    (before : ∀ tally, (m.worker θ).phase ≠ .count tally)
    (after : ∀ tally, (m'.worker θ).phase ≠ .count tally)
    : m'.Published N published := by
  obtain ⟨shape', levels', ok⟩ := ok
  have same : shape' = shape := by
    refine Inv.shape_unique ok.arranged.ok.inv ?_
    rw [tree]
    exact publishes.ok.arranged.ok.inv
  subst same
  have agree (other : ι) : Agree m.system.tree m'.system.tree (m.held (some other)) := by
    rw [tree]
    exact ⟨fun _ _ => rfl, fun _ _ _ => rfl⟩
  have represents : Represents m'.system.tree shape' current := by
    rw [tree]
    exact publishes.represents
  have lags : Lags (Function.update owed θ none) current published := by
    rw [← (publishes.owes θ).eq_none before, Function.update_eq_self]
    exact publishes.lags
  exact publishes.step only (fun other _ => agree other) ok represents lags
    (publishes.counter.trans counter.symm) (.settled after)

/-- What a thread that counts does to the published map is what its call does. -/
theorem shows_count (publishes : Publishes N m shape levels owed current published)
    {tally : Tally} (counts : (m.worker θ).phase = .count tally)
    : ∃ call pc response published',
        (m.system.thread θ).status = .running call pc
        ∧ call.isAtomic
        ∧ pc.result = some response
        ∧ Applies call published response published'
        ∧ Lags (Function.update owed θ none) current published'
        ∧ published'.size = tally.update m.counter := by
  have owing := publishes.owes θ
  generalize owes : owed θ = change at owing
  cases owing with
  | settled settled => exact absurd counts (settled tally)
  | @added key value pc p running result worker covers =>
      obtain ⟨found, missing⟩ := publishes.lags.unpublished θ _ owes
      rw [worker] at counts
      cases counts
      have inserted := published.find?_insert_same key value
      rw [missing] at inserted
      refine ⟨_, pc, _, published.insert key value, running, rfl, result, ⟨rfl, ?_⟩,
        publishes.lags.publish owes (.insert published key value) (inserted.trans found.symm), ?_⟩
      · rw [missing]
        rfl
      · rw [SortedMap.size_insert_of_missing missing, publishes.counter]
        rfl
  | @removed key pc p record running result worker covers equal =>
      obtain ⟨missing, found⟩ := publishes.lags.unpublished θ _ owes
      rw [worker] at counts
      cases counts
      have sought : published.find? key = some record := by
        rw [Query.eq_ofKey equal]
        exact found
      refine ⟨_, pc, _, published.erase key, running, rfl, result, ⟨rfl, ?_⟩,
        publishes.lags.publish owes (Query.eq_ofKey equal ▸ AgreeOff.erase published key)
          ((published.find?_erase_same equal).trans missing.symm), ?_⟩
      · rw [sought]
        rfl
      · have fewer := SortedMap.size_erase_of_found sought
        rw [publishes.counter] at fewer
        rw [Tally.update, if_neg (by omega)]
        omega

/-- A thread that counts its change publishes it. -/
theorem count (publishes : Publishes N m shape levels owed current published) {tally : Tally}
    (counts : (m.worker θ).phase = .count tally)
    (ok : ∃ shape levels, MachineOk N m' shape levels) (only : OnlyThread m m' θ)
    (system : m'.system = m.system) (counter : m'.counter = tally.update m.counter)
    (released : (m'.worker θ).phase = .release)
    : ∃ published',
        m'.Published N published'
        ∧ PointStep Applies m.observed published none m'.observed published' := by
  obtain ⟨shape', levels', ok⟩ := ok
  have same : shape' = shape := by
    refine Inv.shape_unique ok.arranged.ok.inv ?_
    rw [system]
    exact publishes.ok.arranged.ok.inv
  subst same
  obtain ⟨call, pc, response, published', running, atomic, result, applies, lags, size⟩ :=
    publishes.shows_count counts
  refine ⟨published', publishes.step only ?_ ok ?_ lags (size.trans counter.symm)
    (.settled (by simp [released])), only.point ?_ ?_ applies⟩
  · intro other _
    rw [system]
    exact ⟨fun _ _ => rfl, fun _ _ _ => rfl⟩
  · rw [system]
    exact publishes.represents
  · simp [Machine.observed, running, Status.observed, atomic, result, counts, Phase.counts]
  · simp [Machine.observed, system, running, Status.observed, atomic, result, released,
      Phase.counts]

end Publishes

end BLink
