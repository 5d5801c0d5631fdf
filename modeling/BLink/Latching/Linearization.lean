import BLink.Latching.Publication

/-! Linearizability of threads that acquire one latch at a time.
An insertion or a removal that changes the number of records takes effect when it is counted,
under the latch of its leaf; every other operation takes effect where it makes its changes or
reads its result. In this order the record counter always is the size of the map, so that `len`
and `is_empty` are linearizable together with the operations on keys.
-/

namespace BLink

open Library

variable {ι K V : Type} [TotalOrd K] {m m' : Machine ι K V} {θ : ι} {change : Change K V}
  [DecidableEq ι]

-----------------------------------------------------------------------------------------
-- What a section publishes
-----------------------------------------------------------------------------------------

/-- The tree has as many records as the map that it stands for. -/
theorem Represents.size {n : Nat} {t : Tree K V} {shape : Shape} {map : SortedMap K V}
    (rep : Represents t shape map) (inv : Inv n t shape)
    : map.size = t.len := by
  rw [SortedMap.size, rep, List.length_map, inv.count]

/-- A thread has passed a section of its call, from `pc` to `pc'`, that has changed the map in
the leaves from `current` to `current'`.
-/
structure Acted (N : PageCapacity) (m : Machine ι K V) (shape : Shape) (levels : Levels PageId)
    (owed : ι → Option (Change K V)) (current published : SortedMap K V) (θ : ι)
    (call : Call K V) (pc : Pc K V) (m' : Machine ι K V) (shape' : Shape)
    (levels' : Levels PageId) (current' : SortedMap K V) (pc' : Pc K V)
    : Prop where
  publishes : Publishes N m shape levels owed current published
  only : OnlyThread m m' θ
  agree : ∀ other, other ≠ θ → Agree m.system.tree m'.system.tree (m.held (some other))
  ok : MachineOk N m' shape' levels'
  represents : Represents m'.system.tree shape' current'
  counter : m'.counter = m.counter
  settled : owed θ = none
  before : m.observed θ = (Status.running call pc).observed false
  status : (m'.system.thread θ).status = ((m.system.thread θ).resume call pc').status
  serves : ∀ served ∈ pc'.serves, served = call
  worker
    : m'.worker θ
      = { held := (m.worker θ).held, phase := .publish current.size current'.size }

namespace Acted

variable {N : PageCapacity} {shape shape' : Shape} {levels levels' : Levels PageId}
  {owed : ι → Option (Change K V)} {current current' published published' : SortedMap K V}
  {call : Call K V} {pc pc' : Pc K V} {response : Response K V}

omit [DecidableEq ι] in
theorem after
    (acted : Acted N m shape levels owed current published θ call pc m' shape' levels' current'
      pc')
    : m'.observed θ
      = (Status.running call pc').observed (Phase.publish current.size current'.size).counts := by
  rw [Machine.observed, acted.status, acted.worker]
  exact Thread.resume_observed _ pc' acted.serves _

/-- A section that keeps the number of records leaves nothing to count. -/
theorem shown
    (acted : Acted N m shape levels owed current published θ call pc m' shape' levels' current'
      pc')
    (size : current'.size = current.size) (lags : Lags owed current' published')
    (same : published'.size = published.size)
    : m'.Published N published'
      ∧ m'.observed θ = (Status.running call pc').observed false := by
  have released : (m'.worker θ).phase = .release := by
    rw [acted.worker, size, Phase.publish_same]
  constructor
  · refine acted.publishes.step acted.only acted.agree acted.ok acted.represents ?_
      (same.trans (acted.publishes.counter.trans acted.counter.symm))
      (.settled (by simp [released]))
    rw [← acted.settled, Function.update_eq_self]
    exact lags
  · rw [acted.after, size, Phase.publish_same]
    rfl

/-- A section that leaves the map and its call's result as they are shows nothing. -/
theorem unchanged
    (acted : Acted N m shape levels owed current published θ call pc m' shape' levels' current'
      pc')
    (same : current' = current)
    (result : (Status.running call pc').observed false = (Status.running call pc).observed false)
    : ∃ published',
        m'.Published N published'
        ∧ PointStep Applies m.observed published none m'.observed published' := by
  subst same
  obtain ⟨shows, after⟩ := acted.shown rfl acted.publishes.lags rfl
  exact ⟨published, shows, acted.only.internal (after.trans (result.trans acted.before.symm)) _⟩

/-- A section that decides its call on the published map is the call's point. -/
theorem decides
    (acted : Acted N m shape levels owed current published θ call pc m' shape' levels' current'
      pc')
    (atomic : call.isAtomic = true) (undecided : pc.result = none)
    (decided : pc'.result = some response) (size : current'.size = current.size)
    (applies : Applies call published response published') (lags : Lags owed current' published')
    (same : published'.size = published.size)
    : ∃ published',
        m'.Published N published'
        ∧ PointStep Applies m.observed published none m'.observed published' := by
  obtain ⟨shows, after⟩ := acted.shown size lags same
  refine ⟨published', shows, acted.only.point ?_ ?_ applies⟩
  · rw [acted.before]
    simp [Status.observed, atomic, undecided]
  · rw [after]
    simp [Status.observed, atomic, decided]

/-- A section that changes the number of records decides nothing until it is counted. -/
theorem defers
    (acted : Acted N m shape levels owed current published θ call pc m' shape' levels' current'
      pc')
    {change : Change K V} {tally : Tally} (atomic : call.isAtomic = true)
    (undecided : pc.result = none) (decided : pc'.result = some response)
    (counts : Phase.publish current.size current'.size = .count tally)
    (lags : Lags (Function.update owed θ (some change)) current' published)
    (owes : Owing m' θ (some change))
    : ∃ published',
        m'.Published N published'
        ∧ PointStep Applies m.observed published none m'.observed published' := by
  refine ⟨published, ?_, acted.only.internal ?_ published⟩
  · exact acted.publishes.step acted.only acted.agree acted.ok acted.represents lags
      (acted.publishes.counter.trans acted.counter.symm) owes
  · rw [acted.after, acted.before, counts]
    simp [Status.observed, atomic, undecided, decided, Phase.counts]

omit [DecidableEq ι] in
/-- A thread that has a change to count holds the leaf that it has latched exclusively. -/
theorem counting
    (acted : Acted N m shape levels owed current published θ call pc m' shape' levels' current'
      pc')
    {tally : Tally} (counts : Phase.publish current.size current'.size = .count tally)
    {p : PageId} (latched : ∃ mode, (.page p, mode) ∈ (m.worker θ).held)
    : m'.worker θ = { held := [(.page p, .exclusive)], phase := .count tally } := by
  have worker := acted.worker
  rw [counts] at worker
  obtain ⟨q, entries, held, -⟩ := acted.ok.counting (congrArg Worker.phase worker)
  obtain ⟨mode, member⟩ := latched
  rw [worker] at held
  simp only at held
  rw [held, List.mem_singleton] at member
  cases member
  rw [worker, held]

/-- A section that gives a call on a key its result shows it, or leaves it to be counted. -/
theorem keyed
    (acted : Acted N m shape levels owed current published θ call pc m' shape' levels' current'
      pc')
    {p : PageId} {key : Query K} (keyed : call.key? = some key)
    (keeps : Keeps m.system.tree shape m'.system.tree (m.worker θ).held p key)
    (running : (m'.system.thread θ).status = .running call pc') (undecided : pc.result = none)
    (decided : pc'.result = some response) (applies : Applies call current response current')
    : ∃ published',
        m'.Published N published'
        ∧ PointStep Applies m.observed published none m'.observed published' := by
  have lags := acted.publishes.lags
  have atomic := Call.isAtomic_of_key keyed
  obtain ⟨entries, owns⟩ := keeps.owns
  obtain ⟨mode, latched⟩ := keeps.latched
  have free : Free owed key :=
    acted.publishes.free owns.member owns.covers (some θ) latched
      (by rintro _ ⟨⟩; exact acted.settled)
  have covers : Covers (m'.system.tree.low p) (m'.system.tree.high p) key := by
    rw [keeps.low, keeps.high]
    exact owns.covers
  cases Shows.of_lags lags keyed free applies with
  | now applies lags size shown =>
      exact acted.decides atomic undecided decided size applies lags shown
  | @added key value isInsert replaces missing =>
      subst isInsert
      cases keyed
      have counts : Phase.publish current.size (current.insert key value).size = .count .added := by
        rw [SortedMap.size_insert_of_missing missing, Phase.publish, if_pos rfl]
      have inserted := current.find?_insert_same key value
      rw [missing] at inserted
      rw [replaces] at decided
      refine acted.defers atomic undecided decided counts ?_
        (.added running decided (acted.counting counts keeps.latched) covers)
      refine lags.defer free acted.settled (.insert current key value) ⟨inserted, ?_⟩
      exact (lags.find?_eq free).trans missing
  | @removed key record isRemove removes found =>
      subst isRemove
      cases keyed
      have equal : key.cmp record.1 = .eq := (SortedMap.find?_eq_some.mp found).2
      have fewer := SortedMap.size_erase_of_found found
      have counts : Phase.publish current.size (current.erase key).size = .count .removed := by
        rw [Phase.publish, if_neg (by omega), if_pos fewer]
      have erased := current.find?_erase_same equal
      have sought := (lags.find?_eq free).trans found
      rw [removes] at decided
      rw [Query.eq_ofKey equal] at free covers sought
      refine acted.defers atomic undecided decided counts ?_
        (.removed running decided (acted.counting counts keeps.latched) covers equal)
      exact lags.defer free acted.settled (Query.eq_ofKey equal ▸ AgreeOff.erase current key)
        ⟨erased, sought⟩

omit [DecidableEq ι] in
/-- While the leftmost leaf is latched, all changes that are still owed are behind it. -/
theorem first?_eq
    (acted : Acted N m shape levels owed current published θ call pc m' shape' levels' current'
      pc')
    {p : PageId} {entries : List (Entry K V)} (member : p ∈ shape.row 0)
    (kind : (m.system.tree.page p).kind = .leaf entries) (low : m.system.tree.low p = none)
    (latched : (.page p, .shared) ∈ (m.worker θ).held)
    : published.first? = current.first? := by
  have inv := acted.publishes.ok.arranged.ok.inv
  have elsewhere {other : ι} {change : Change K V} (owes : owed other = some change)
      : ∃ q ∈ shape.row 0,
          q ≠ p
          ∧ Covers (m.system.tree.low q) (m.system.tree.high q) (.ofKey change.key) := by
    obtain ⟨q, inRow, held, covers⟩ := acted.publishes.leaf owes
    refine ⟨q, inRow, fun same => ?_, covers⟩
    subst same
    refine acted.publishes.ok.exclusive (some other) (some θ) ?_ _ _ held latched
    intro mine
    cases mine
    rw [acted.settled] at owes
    cases owes
  cases entries with
  | nil =>
      have alone := (inv.row_of_empty N.three_le member kind).2
      have settled (other : ι) : owed other = none := by
        cases owes : owed other with
        | none => rfl
        | some change =>
            obtain ⟨q, inRow, differs, -⟩ := elsewhere owes
            rw [alone, List.mem_singleton] at inRow
            exact absurd inRow differs
      rw [acted.publishes.lags.eq_of_settled settled]
  | cons entry others =>
      have inside : entry ∈ m.system.tree.entries p := by
        rw [Tree.entries, kind]
        exact List.mem_cons_self
      have first : current.first? = some entry.record := by
        rw [SortedMap.first?, acted.publishes.represents, List.head?_map,
          inv.records_head? N.three_le member low, Tree.entries, kind]
        rfl
      rw [first]
      refine acted.publishes.lags.first?_eq first (fun other change owes => ?_)
      obtain ⟨q, inRow, differs, covers⟩ := elsewhere owes
      rcases inv.eq_or_precedes member inRow with same | before | after
      · exact absurd same.symm differs
      · obtain ⟨last, ends, next, begins, le⟩ := before
        have below : entry.key < last := (inv.within member inside).2 last ends
        have reaches : compare entry.key.key next.key = .lt := lt_of_lt_of_le below le
        exact Std.TransCmp.lt_of_lt_of_isLE reaches (not_lt_iff_isLE.mp (covers.1 next begins))
      · obtain ⟨_, _, next, begins, _⟩ := after
        rw [low] at begins
        cases begins

end Acted

/-- A section that gives its call a result leaves the call there. -/
theorem Thread.resume_of_result (thread : Thread K V) {call : Call K V} {pc : Pc K V}
    {response : Response K V} (decided : pc.result = some response)
    : (thread.resume call pc).status = .running call pc := by
  cases pc with
  | candidate => cases decided
  | _ => rfl

namespace Publishes

variable {N : PageCapacity} {shape shape' : Shape} {levels levels' : Levels PageId}
  {owed : ι → Option (Change K V)} {current current' published : SortedMap K V}
  {call : Call K V} {pc pc' : Pc K V} {latched upgraded : Bool} {t' : Tree K V}

/-- What a section does to the published map, as far as it is determined by what it does to the
map in the leaves.
-/
theorem acted (publishes : Publishes N m shape levels owed current published)
    (pass : LatchedPass N m shape levels θ latched upgraded m' call pc t' pc' shape' levels')
    (acts : (m.worker θ).phase = .act latched) (counter : m'.counter = m.counter)
    (represents : Represents t' shape' current') (outcome : Outcome current pc current' pc')
    : Acted N m shape levels owed current published θ call pc m' shape' levels' current' pc' := by
  have system := publishes.ok.arranged.ok
  have len : current.size = m.system.tree.len := publishes.represents.size system.inv
  have len' : current'.size = t'.len := represents.size pass.advance.inv
  exact {
    publishes := publishes
    only := {
      thread := fun other differs => by
        rw [pass.passed.target]
        exact System.setThread_other m.system _ differs
      worker := fun other differs => by rw [pass.worker, Function.update_of_ne differs]
    }
    agree := fun other differs => by
      rw [pass.tree_eq]
      exact pass.agree publishes.ok (fun same => differs (Option.some.inj same))
    ok := pass.machineOk publishes.ok
    represents := by rwa [pass.tree_eq]
    counter := counter
    settled := (publishes.owes θ).eq_none (by simp [acts])
    before := by
      rw [Machine.observed, pass.passed.running, acts]
      rfl
    status := by
      rw [pass.passed.target]
      exact congrArg Thread.status (System.setThread_same ..)
    serves := fun served isServed =>
      (system.thread θ).serves call pc pass.passed.running served
        (outcome.serves_of_mem served isServed)
    worker := by rw [pass.worker, Function.update_self, len, len']
  }

/-- Every section is a step of the published map. -/
theorem act (publishes : Publishes N m shape levels owed current published)
    (running : (m.system.thread θ).status = .running call pc)
    (acts : (m.worker θ).phase = .act latched) (upgraded : Bool)
    : ∃ published',
        (m.perform N θ call latched upgraded pc).Published N published'
        ∧ PointStep Applies m.observed published none
            (m.perform N θ call latched upgraded pc).observed published' := by
  obtain ⟨t', pc', shape', levels', pass⟩ := publishes.ok.perform running acts upgraded
  obtain ⟨shape₂, advance, outcomes⟩ := pass.passed.preserved publishes.ok.arranged.ok
  have sameShape := advance.inv.shape_unique pass.advance.inv
  subst sameShape
  obtain ⟨current', represents, outcome⟩ := outcomes current publishes.represents
  have acted := publishes.acted pass acts rfl represents outcome
  have inv := publishes.ok.arranged.ok.inv
  have thread := publishes.ok.arranged.ok.thread θ
  have serves := thread.serves call pc running
  cases outcome with
  | silent same => exact acted.unchanged rfl (by simp only [Status.observed, same])
  | last at' after =>
      subst at'
      have isLast := serves _ rfl
      subst isLast
      exact acted.unchanged rfl rfl
  | @point call' response _ _ isServed undecided decided _ applies =>
      have same := serves call' isServed
      subst same
      have running' : ((m.perform N θ call' latched upgraded pc).system.thread θ).status
          = .running call' pc' := by
        rw [acted.status]
        exact Thread.resume_of_result _ decided
      cases call' with
      | get | containsKey | getMut | insert | remove =>
          obtain ⟨p, keeps⟩ :=
            pass.passed.effect.keeps pass.stage isServed rfl undecided decided
          rw [← pass.tree_eq] at keeps
          exact acted.keyed rfl keeps running' undecided decided applies
      | firstKeyValue =>
          obtain ⟨p, entries, member, kind, low, held⟩ :=
            pass.passed.effect.keepsFirst pass.stage inv (thread.pc _ _ running) isServed decided
          have first := acted.first?_eq member kind low held
          obtain ⟨rfl, isRecord⟩ := applies
          rw [← first] at isRecord
          exact acted.decides rfl undecided decided rfl ⟨rfl, isRecord⟩ publishes.lags rfl
      | lastKeyValue => exact acted.unchanged applies.1 rfl
      | len => exact absurd isServed pass.stage.not_load.1
      | isEmpty => exact absurd isServed pass.stage.not_load.2
      | next => exact applies.elim

/-- The loaded counter is the size of the published map. -/
theorem load (publishes : Publishes N m shape levels owed current published)
    (running : (m.system.thread θ).status = .running call pc)
    (loads : (m.worker θ).phase = .load) (only : OnlyThread m m' θ)
    (ok : ∃ shape levels, MachineOk N m' shape levels)
    (tree : m'.system.tree = m.system.tree) (counter : m'.counter = m.counter)
    (status : (m'.system.thread θ).status = .running call (pc.loaded m.counter))
    (worker : m'.worker θ = .resting)
    : m'.Published N published
      ∧ PointStep Applies m.observed published none m'.observed published := by
  obtain ⟨-, acquired⟩ := publishes.ok.acquired running loads (by simp) (by simp)
  obtain ⟨-, isLoad⟩ := acquired.load
  have serves := (publishes.ok.arranged.ok.thread θ).serves call pc running
  constructor
  · exact publishes.quiet only ok tree counter (by simp [loads]) (by simp [worker, Worker.resting])
  · rcases isLoad with rfl | rfl
    · obtain rfl := serves _ rfl
      have applies : Applies .len published (.count m.counter) published :=
        ⟨rfl, by rw [publishes.counter]⟩
      refine only.point ?_ ?_ applies
      · rw [Machine.observed, running, loads]
        rfl
      · rw [Machine.observed, status, worker]
        rfl
    · obtain rfl := serves _ rfl
      have applies : Applies .isEmpty published (.flag (m.counter = 0)) published :=
        ⟨rfl, by rw [publishes.counter]⟩
      refine only.point ?_ ?_ applies
      · rw [Machine.observed, running, loads]
        rfl
      · rw [Machine.observed, status, worker]
        rfl

end Publishes

variable {N : PageCapacity}

omit [DecidableEq ι] in
/-- A thread without a call holds no latch and owes nothing. -/
theorem MachineOk.resting {shape : Shape} {levels : Levels PageId} (ok : MachineOk N m shape levels)
    (idle : (m.system.thread θ).status = .idle)
    : m.worker θ = .resting := by
  have worker := ok.worker θ
  rw [idle] at worker
  generalize m.worker θ = current at worker
  cases worker
  rfl

theorem OnlyThread.setWorker (m : Machine ι K V) (θ : ι) (worker : Worker)
    : OnlyThread m (m.setWorker θ worker) θ where
  thread _ _ := rfl
  worker _ differs := Function.update_of_ne differs ..

theorem OnlyThread.setThread (m : Machine ι K V) (θ : ι) (thread : Thread K V)
    : OnlyThread m (m.setThread θ thread) θ where
  thread _ differs := System.setThread_other m.system thread differs
  worker _ _ := rfl

/-- A step in which a thread only acquires or gives up latches shows nothing. -/
theorem OnlyThread.latches {published : SortedMap K V} {shape : Shape} {levels : Levels PageId}
    {owed : ι → Option (Change K V)} {current : SortedMap K V} (only : OnlyThread m m' θ)
    (publishes : Publishes N m shape levels owed current published)
    (ok : ∃ shape levels, MachineOk N m' shape levels) (system : m'.system = m.system)
    (counter : m'.counter = m.counter) (before : ∀ tally, (m.worker θ).phase ≠ .count tally)
    (after : ∀ tally, (m'.worker θ).phase ≠ .count tally)
    : ∃ published',
        m'.Published N published'
        ∧ PointStep Applies m.observed published none m'.observed published' := by
  refine ⟨published, publishes.quiet only ok (by rw [system]) counter before after,
    only.internal ?_ published⟩
  rw [Machine.observed, Machine.observed, system, Phase.counts_eq_false before,
    Phase.counts_eq_false after]

/-- A step in which a thread only acquires or releases latches shows nothing. -/
theorem Publishes.setWorker {published : SortedMap K V} {shape : Shape} {levels : Levels PageId}
    {owed : ι → Option (Change K V)} {current : SortedMap K V} {worker : Worker}
    (publishes : Publishes N m shape levels owed current published)
    (ok : ∃ shape levels, MachineOk N (m.setWorker θ worker) shape levels)
    (before : ∀ tally, (m.worker θ).phase ≠ .count tally)
    (after : ∀ tally, worker.phase ≠ .count tally)
    : ∃ published',
        (m.setWorker θ worker).Published N published'
        ∧ PointStep Applies m.observed published none (m.setWorker θ worker).observed
            published' := by
  refine (OnlyThread.setWorker m θ worker).latches publishes ok rfl rfl before ?_
  rw [show (m.setWorker θ worker).worker θ = worker from Function.update_self ..]
  exact after

/-- A call begins. -/
theorem Publishes.invoke {published : SortedMap K V} {shape : Shape} {levels : Levels PageId}
    {owed : ι → Option (Change K V)} {current : SortedMap K V} {call : Call K V}
    (publishes : Publishes N m shape levels owed current published) (only : OnlyThread m m' θ)
    (ok : ∃ shape levels, MachineOk N m' shape levels)
    (tree : m'.system.tree = m.system.tree) (counter : m'.counter = m.counter)
    (idle : (m.system.thread θ).status = .idle) (cursors : Nat → Cursor K)
    (running : (m'.system.thread θ).status = .running call (call.begin cursors).2)
    (after : ∀ tally, (m'.worker θ).phase ≠ .count tally)
    : m'.Published N published
      ∧ PointStep Applies m.observed published (atomicEvent (.invoke θ call)) m'.observed
          published := by
  have free := publishes.ok.resting idle
  have before : m.observed θ = .idle := by
    rw [Machine.observed, idle]
    rfl
  have begun := Call.begin_observed call cursors
  refine ⟨publishes.quiet only ok tree counter (by simp [free, Worker.resting]) after, ?_⟩
  rw [only.observed, Machine.observed, running, Phase.counts_eq_false after, begun, atomicEvent]
  split_ifs with atomic
  · exact .invoke before
  · rw [← before, Function.update_eq_self]
    exact .internal

/-- A call returns. -/
theorem Publishes.respond {published : SortedMap K V} {shape : Shape} {levels : Levels PageId}
    {owed : ι → Option (Change K V)} {current : SortedMap K V} {call : Call K V}
    {response : Response K V}
    (publishes : Publishes N m shape levels owed current published) (only : OnlyThread m m' θ)
    (ok : ∃ shape levels, MachineOk N m' shape levels)
    (tree : m'.system.tree = m.system.tree) (counter : m'.counter = m.counter)
    (done : (m.system.thread θ).status = .running call (.done response))
    (free : m.worker θ = .resting) (idle : (m'.system.thread θ).status = .idle)
    (after : m'.worker θ = .resting)
    : m'.Published N published
      ∧ PointStep Applies m.observed published (atomicEvent (.respond θ call response))
          m'.observed published := by
  have before : m.observed θ = if call.isAtomic then .decided call response else .idle := by
    rw [Machine.observed, done, free]
    rfl
  have now : m'.observed θ = .idle := by
    rw [Machine.observed, idle]
    rfl
  refine ⟨publishes.quiet only ok tree counter (by simp [free, Worker.resting])
    (by simp [after, Worker.resting]), ?_⟩
  rw [only.observed, now, atomicEvent]
  split_ifs at before ⊢ with atomic
  · exact .respond before
  · rw [← before, Function.update_eq_self]
    exact .internal

/-- Every step is a step of the published map. -/
theorem Machine.Published.step {published : SortedMap K V} {action : Action ι K V}
    (shown : m.Published N published)
    (step : (Machine.transitions ι K V N).step m action m')
    : ∃ published',
        m'.Published N published'
        ∧ PointStep Applies m.observed published (atomicEvent action) m'.observed published' := by
  obtain ⟨shape, levels, owed, current, publishes⟩ := shown
  have good := publishes.ok
  have ok := good.step step
  have rests : ∀ tally, Worker.resting.phase ≠ .count tally := by simp [Worker.resting]
  cases step with
  | @invoke θ call idle =>
      refine ⟨published, publishes.invoke ?_ ok rfl rfl idle (m.system.thread θ).cursors ?_ ?_⟩
      · exact ⟨fun _ differs => System.setThread_other m.system _ differs,
          fun _ differs => Function.update_of_ne differs ..⟩
      · exact congrArg Thread.status (System.setThread_same ..)
      · rw [show ((m.setThread θ _).enter N θ _).worker θ = _ from Function.update_self ..]
        exact Acquired.plan_ne_count .enter
  | @respond θ call response done free =>
      exact ⟨published, publishes.respond (.setThread m θ _) ok rfl rfl done free
        (congrArg Thread.status (System.setThread_same ..)) free⟩
  | enter running unfinished free =>
      exact publishes.setWorker ok (by rw [free]; exact rests) (Acquired.plan_ne_count .enter)
  | acquire running waits available =>
      obtain ⟨-, acquired⟩ := good.acquired running waits (by simp) (by simp)
      exact publishes.setWorker ok (by simp [waits]) (Acquired.plan_ne_count (.acquire acquired))
  | latch running tries available =>
      obtain ⟨-, acquired⟩ := good.acquired running tries (by simp) (by simp)
      exact publishes.setWorker ok (by simp [tries]) (Acquired.plan_ne_count (.latch acquired))
  | miss tries => exact publishes.setWorker ok (by simp [tries]) (by simp)
  | hop hops => exact publishes.setWorker ok (by simp [hops]) (by simp)
  | act running acts weak => exact publishes.act running acts _
  | @load θ call pc running loads =>
      refine ⟨published, publishes.load running loads ?_ ok rfl rfl ?_ ?_⟩
      · exact ⟨fun _ differs => System.setThread_other m.system _ differs,
          fun _ differs => Function.update_of_ne differs ..⟩
      · exact congrArg Thread.status (System.setThread_same ..)
      · exact Function.update_self ..
  | @count θ tally counts =>
      exact publishes.count counts ok
        ⟨fun _ _ => rfl, fun _ differs => Function.update_of_ne differs ..⟩ rfl rfl
        (by simp [Machine.setWorker])
  | release releases => exact publishes.setWorker ok (by simp [releases]) (by simp)
  | @retain θ call entry holding done last =>
      have only : OnlyThread m { m.setWorker θ .resting with guards := holding :: m.guards } θ :=
        ⟨fun _ _ => rfl, fun _ differs => Function.update_of_ne differs ..⟩
      exact only.latches publishes ok rfl rfl (by simp [last])
        (by simp [Machine.setWorker, Worker.resting])
  | drop retained =>
      obtain ⟨shape', levels', ok'⟩ := ok
      have same : shape = shape' :=
        Inv.shape_unique good.arranged.ok.inv ok'.arranged.ok.inv
      subst same
      refine ⟨published, ⟨shape, levels', owed, current, ok', publishes.represents,
        publishes.lags, publishes.counter, fun θ => ?_⟩, .internal⟩
      exact (publishes.owes θ).congr rfl rfl ⟨fun _ _ => rfl, fun _ _ _ => rfl⟩

omit [DecidableEq ι] in
/-- Before the first call nothing is owed, and the map is empty. -/
theorem Machine.Initial.published (initial : m.Initial)
    : m.Published N SortedMap.empty := by
  refine ⟨Shape.single, Levels.first, fun _ => none, SortedMap.empty, initial.ok, ?_, .refl _, ?_,
    fun θ => .settled ?_⟩
  · exact initial.system.represents
  · rw [initial.counter]
    rfl
  · rw [initial.worker θ]
    simp [Worker.resting]

/-- All histories of the operations that look at the map once are linearizable, one latch at a
time: lookups, insertions, removals, mutable accesses, `first_key_value`, `len` and `is_empty`
can be put in one order that respects their real-time order, and in which an ordered map gives
every completed operation the result it had. Guards may be kept and dropped at any time, and
other threads may run iterators and `last_key_value` meanwhile.
-/
theorem atomic_calls_linearizable
    {trace : List (Transition (Machine ι K V) (Action ι K V))}
    (initial : (Machine.transitions ι K V N).init m)
    (run : (Machine.transitions ι K V N).Run m trace m')
    : Linearizable Applies SortedMap.empty (historyOf atomicEvent trace) := by
  refine linearizable_of_points (Machine.Published N) Machine.observed run ?_ initial.published ?_
  · intro θ
    rw [Machine.observed, initial.system.idle θ]
    rfl
  · intro earlier s action s' published _ step shown
    exact shown.step step

/-- A thread loads the counter after another one has added a record, and before it counts it. -/
theorem atomic_calls_linearizable_uncounted
    : ∃ trace m,
        (Machine.fresh : Machine (Fin 2) Nat Nat).replay .smallest [0, 1]
            (.invoke 0 (.insert 1 7) :: List.replicate 10 (.advance 0)
              ++ [.invoke 1 .len, .advance 1, .advance 1] ++ List.replicate 3 (.advance 0))
          = some (trace, m)
        ∧ Linearizable Applies SortedMap.empty (historyOf atomicEvent trace) := by
  have plays : ((Machine.fresh : Machine (Fin 2) Nat Nat).replay .smallest [0, 1]
      (.invoke 0 (.insert 1 7) :: List.replicate 10 (.advance 0)
        ++ [.invoke 1 .len, .advance 1, .advance 1]
        ++ List.replicate 3 (.advance 0))).isSome = true := by
    decide +kernel
  obtain ⟨⟨trace, m⟩, replayed⟩ := Option.isSome_iff_exists.mp plays
  exact ⟨trace, m, replayed,
    atomic_calls_linearizable Machine.fresh_initial (Machine.run_of_replay (by decide) replayed)⟩

end BLink
