import BLink.Model.Threads
import BLink.Sections.Preservation

/-! What holds in every state that threads can reach together.
The structural invariant holds between any two sections, and so does everything that the
waiting operations rely on; therefore the next section of any thread has its effect.
-/

namespace BLink

open Library

variable {ι K V : Type} [TotalOrd K]

/-- The lookup that a cursor's call makes, once the call has begun. -/
def Cursor.seeking : Cursor K → Seek K
  | .iter none _ => .firstEntry
  | .range .unbounded _ none _ _ => .firstEntry
  | .range (.included start) _ none _ _ => .entryAtOrAfter start true
  | .range (.excluded start) _ none _ _ => .entryAtOrAfter start false
  | .iter (some key) _ | .range _ _ (some key) _ _ => .entryAtOrAfter (.ofKey key.key) false

theorem Cursor.seeking_ne_exhausted (cursor : Cursor K) : cursor.seeking ≠ .exhausted := by
  unfold Cursor.seeking
  split <;> exact nofun

/-- The cursor has returned `None`. -/
def Cursor.isFinished : Cursor K → Bool
  | .iter _ finished | .range _ _ _ _ finished => finished

/-- A call of `next` has begun, and the cursor is not exhausted. -/
def Cursor.Begun : Cursor K → Prop
  | .iter _ finished => finished = false
  | .range _ _ _ started finished => started = true ∧ finished = false

/-- Between two calls of `next`, a started range remembers its last key until it ends. -/
def Cursor.Ready : Cursor K → Prop
  | .iter _ _ => True
  | .range _ _ last started finished =>
      (started = false → last = none) ∧ (started = true → finished = false → last.isSome)

theorem Cursor.Created.ready {cursor : Cursor K} (created : cursor.Created) : cursor.Ready := by
  cases created with
  | iter => trivial
  | range start stop => exact ⟨fun _ => rfl, by rintro ⟨⟩⟩

/-- A call of `next` begins without failure: with the cursor's lookup, unless it is finished.
-/
theorem Cursor.begin_ok {cursor : Cursor K} (ready : cursor.Ready)
    : ∃ begun seek,
        cursor.begin = .ok (begun, seek)
        ∧ (cursor.isFinished = true ∧ begun = cursor ∧ seek = .exhausted
          ∨ cursor.isFinished = false ∧ begun.Begun ∧ seek = begun.seeking) := by
  cases cursor with
  | iter last finished =>
      cases finished with
      | true => exact ⟨_, _, rfl, .inl ⟨rfl, rfl, rfl⟩⟩
      | false => cases last <;> exact ⟨_, _, rfl, .inr ⟨rfl, rfl, rfl⟩⟩
  | range start stop last started finished =>
      cases finished with
      | true => exact ⟨_, _, rfl, .inl ⟨rfl, rfl, rfl⟩⟩
      | false =>
          cases started with
          | false =>
              obtain rfl := ready.1 rfl
              cases start <;> exact ⟨_, _, rfl, .inr ⟨rfl, ⟨rfl, rfl⟩, rfl⟩⟩
          | true =>
              obtain ⟨key, rfl⟩ := Option.isSome_iff_exists.mp (ready.2 rfl rfl)
              exact ⟨_, _, rfl, .inr ⟨rfl, ⟨rfl, rfl⟩, by cases start <;> rfl⟩⟩

/-- A call of `next` that began leaves the cursor ready for the next one. -/
theorem Cursor.Begun.finish_ready {cursor : Cursor K} (begun : cursor.Begun)
    (found : Option (Entry K V))
    : (cursor.finish found).1.Ready := by
  cases cursor with
  | iter last finished => cases found <;> trivial
  | range start stop last started finished =>
      obtain ⟨rfl, rfl⟩ := begun
      cases found with
      | none => exact ⟨nofun, nofun⟩
      | some entry =>
          rw [Cursor.finish]
          split_ifs with inside
          · exact ⟨nofun, fun _ _ => rfl⟩
          · exact ⟨nofun, nofun⟩

/-- The cursor and the lookup that a running operation serves. -/
def Pc.seek : Pc K V → Option (Nat × Seek K)
  | .leafRoot (.read (.entryAtOrAfter cursor key inclusive)) =>
      some (cursor, .entryAtOrAfter key inclusive)
  | .leafRead (.read (.entryAtOrAfter cursor key inclusive)) _ =>
      some (cursor, .entryAtOrAfter key inclusive)
  | .seekRight cursor key inclusive _ => some (cursor, .entryAtOrAfter key inclusive)
  | .leftmostRoot (some cursor) => some (cursor, .firstEntry)
  | .leftmostLeaf (some cursor) _ => some (cursor, .firstEntry)
  | .firstEntry (some cursor) _ => some (cursor, .firstEntry)
  | _ => none

/-- A section goes on with its cursor's lookup, or ends it with a candidate record. -/
theorem Effect.seek_eq {N : Nat} {t t' : Tree K V} {shape : Shape} {upgraded : Bool}
    {pc pc' : Pc K V} (effect : Effect N t shape latched upgraded pc t' pc')
    : pc'.seek = pc.seek ∧ pc'.isSettled = pc'.isFinal
      ∨ ∃ cursor seek found, pc.seek = some (cursor, seek) ∧ pc' = .candidate cursor found := by
  cases effect with
  | read same reads =>
      cases reads with
      | seekFound _ _ _ source =>
          rcases source with ⟨rfl, -⟩ | rfl <;> exact .inr ⟨_, _, _, rfl, rfl⟩
      | seekNext _ _ _ _ _ _ _ source =>
          rcases source with ⟨rfl, -⟩ | rfl <;> exact .inl ⟨rfl, rfl⟩
      | seekEnd _ _ _ _ source =>
          rcases source with ⟨rfl, -⟩ | rfl <;> exact .inr ⟨_, _, _, rfl, rfl⟩
      | @firstFound consumer =>
          cases consumer with
          | none => exact .inl ⟨rfl, rfl⟩
          | some cursor => exact .inr ⟨_, _, _, rfl, rfl⟩
      | @leafRoot task => cases task with
          | read task => cases task <;> exact .inl ⟨rfl, rfl⟩
          | write task => exact .inl ⟨rfl, rfl⟩
      | @restart task => cases task with
          | read task => cases task <;> exact .inl ⟨rfl, rfl⟩
          | write task => exact .inl ⟨rfl, rfl⟩
      | @descend task => cases task with
          | read task => cases task <;> exact .inl ⟨rfl, rfl⟩
          | write task => exact .inl ⟨rfl, rfl⟩
      | @leftmostRoot consumer | @leftmostDescend consumer | @leftmostForward consumer
      | @leftmostFound consumer | @firstNext consumer | @firstForward consumer =>
          cases consumer <;> exact .inl ⟨rfl, rfl⟩
      | _ => exact .inl ⟨rfl, rfl⟩
  | write writes => cases writes <;> exact .inl ⟨rfl, rfl⟩
  | insert inserts =>
      cases inserts with
      | @repairSkipped _ _ _ _ target | @repaired _ _ _ _ _ target =>
          cases target <;> exact .inl ⟨rfl, rfl⟩
      | _ => exact .inl ⟨rfl, rfl⟩
  | remove removes =>
      cases removes with
      | @rootStays _ result => cases result <;> exact .inl ⟨rfl, rfl⟩
      | _ => exact .inl ⟨rfl, rfl⟩
  | repair repairs => cases repairs <;> exact .inl ⟨rfl, rfl⟩

/-- A thread's program counter and cursors are good for the tree. -/
structure ThreadOk (t : Tree K V) (shape : Shape) (thread : Thread K V) : Prop where
  pc : ∀ call pc, thread.status = .running call pc → PcOk t shape pc
  serves
    : ∀ call pc, thread.status = .running call pc → ∀ served ∈ pc.serves, served = call
  settled
    : ∀ call pc, thread.status = .running call pc → pc.isSettled = pc.isFinal
  seeking
    : ∀ call pc cursor seek,
        thread.status = .running call pc → pc.seek = some (cursor, seek)
        → (thread.cursors cursor).Begun ∧ (thread.cursors cursor).seeking = seek
  ready
    : ∀ cursor,
        (∀ call pc seek, thread.status = .running call pc → pc.seek ≠ some (cursor, seek))
        → (thread.cursors cursor).Ready

/-- A waiting thread keeps what it relies on while other threads proceed. -/
theorem ThreadOk.evolve {t t' : Tree K V} {shape shape' : Shape} {thread : Thread K V}
    (ok : ThreadOk t shape thread) (evolves : Evolves t shape t' shape')
    : ThreadOk t' shape' thread where
  pc := fun call pc running => (ok.pc call pc running).evolve evolves
  serves := ok.serves
  settled := ok.settled
  seeking := ok.seeking
  ready := ok.ready

theorem ThreadOk.idle {t : Tree K V} {shape : Shape} {thread : Thread K V}
    (idle : thread.status = .idle) (ready : ∀ cursor, (thread.cursors cursor).Ready)
    : ThreadOk t shape thread where
  pc := fun call pc running => by rw [idle] at running; cases running
  serves := fun call pc running => by rw [idle] at running; cases running
  settled := fun call pc running => by rw [idle] at running; cases running
  seeking := fun call pc cursor seek running => by rw [idle] at running; cases running
  ready := fun cursor _ => ready cursor

/-- A thread whose program counter serves no cursor. -/
theorem ThreadOk.of_seek_none {t : Tree K V} {shape : Shape} {call : Call K V} {pc : Pc K V}
    {cursors : Nat → Cursor K} (ok : PcOk t shape pc)
    (serves : ∀ served ∈ pc.serves, served = call)
    (settled : pc.isSettled = pc.isFinal) (seek : pc.seek = none)
    (ready : ∀ cursor, (cursors cursor).Ready)
    : ThreadOk t shape { status := .running call pc, cursors } where
  pc := by rintro _ _ ⟨⟩; exact ok
  serves := by rintro _ _ ⟨⟩; exact serves
  settled := by rintro _ _ ⟨⟩; exact settled
  seeking := by
    rintro _ _ cursor seek' ⟨⟩ isSeek
    rw [seek] at isSeek
    cases isSeek
  ready := fun cursor _ => ready cursor

/-- A thread whose program counter serves a cursor that has begun. -/
theorem ThreadOk.of_seek {t : Tree K V} {shape : Shape} {call : Call K V} {pc : Pc K V}
    {cursors : Nat → Cursor K} (cursor : Nat) {seek : Seek K} (ok : PcOk t shape pc)
    (serves : ∀ served ∈ pc.serves, served = call)
    (settled : pc.isSettled = pc.isFinal)
    (isSeek : pc.seek = some (cursor, seek)) (begun : (cursors cursor).Begun)
    (seeking : (cursors cursor).seeking = seek)
    (ready : ∀ other, other ≠ cursor → (cursors other).Ready)
    : ThreadOk t shape { status := .running call pc, cursors } where
  pc := by rintro _ _ ⟨⟩; exact ok
  serves := by rintro _ _ ⟨⟩; exact serves
  settled := by rintro _ _ ⟨⟩; exact settled
  seeking := by
    rintro _ _ other seek' ⟨⟩ same
    rw [isSeek] at same
    cases same
    exact ⟨begun, seeking⟩
  ready := by
    intro other unused
    refine ready other ?_
    rintro rfl
    exact unused _ _ _ rfl isSeek

/-- Every call begins well. -/
theorem Call.begin_ok {t : Tree K V} {shape : Shape} (call : Call K V)
    {cursors : Nat → Cursor K} (ready : ∀ cursor, (cursors cursor).Ready)
    : ThreadOk t shape {
        status := .running call (call.begin cursors).2
        cursors := (call.begin cursors).1
      } := by
  cases call with
  | next cursor =>
      obtain ⟨begun, seek, result, finished | ⟨-, isBegun, rfl⟩⟩ := Cursor.begin_ok (ready cursor)
      · obtain ⟨-, rfl, rfl⟩ := finished
        simp only [Call.begin, result, Function.update_eq_self]
        exact .of_seek_none trivial (by rintro _ ⟨⟩) rfl rfl ready
      · simp only [Call.begin, result]
        have others (other : Nat) (differs : other ≠ cursor)
            : (Function.update cursors cursor begun other).Ready := by
          rw [Function.update_of_ne differs]
          exact ready other
        cases seek : begun.seeking with
        | exhausted => exact absurd seek begun.seeking_ne_exhausted
        | firstEntry =>
            refine ThreadOk.of_seek cursor trivial (by rintro _ ⟨⟩; rfl) rfl rfl
              ?_ ?_ others
            · rwa [Function.update_self]
            · rwa [Function.update_self]
        | entryAtOrAfter key inclusive =>
            refine ThreadOk.of_seek cursor trivial (by rintro _ ⟨⟩; rfl) rfl rfl
              ?_ ?_ others
            · rwa [Function.update_self]
            · rwa [Function.update_self]
  | _ => exact .of_seek_none trivial (by rintro _ ⟨⟩; rfl) rfl rfl ready

-----------------------------------------------------------------------------------------
-- Reachable states
-----------------------------------------------------------------------------------------

/-- The tree has the shape, and every thread is good for it. -/
structure SystemOk (N : PageCapacity) (s : System ι K V) (shape : Shape) : Prop where
  inv : Inv N.size s.tree shape
  thread : ∀ θ, ThreadOk s.tree shape (s.thread θ)

variable {N : PageCapacity} {s s' : System ι K V} {shape : Shape} {θ : ι}

/-- The shape of the empty tree. -/
def Shape.single : Shape where
  height := 0
  row
    | 0 => [0]
    | _ + 1 => []

theorem Shape.mem_single {l : Nat} {p : PageId} : p ∈ Shape.single.row l ↔ l = 0 ∧ p = 0 := by
  cases l <;> simp [Shape.single]

/-- The empty tree has the invariant. -/
theorem Inv.empty (N : Nat) : Inv N (Tree.empty : Tree K V) Shape.single where
  top := rfl
  above := by
    intro l positive
    obtain ⟨m, rfl⟩ := Nat.exists_eq_succ_of_ne_zero (Nat.ne_of_gt positive)
    rfl
  below := by rintro l ⟨⟩
  active_iff := by
    intro p
    simp only [Shape.mem_single, exists_eq_left, Tree.Active]
    exact ⟨fun active => Nat.lt_one_iff.mp active.1, fun zero => ⟨zero ▸ Nat.one_pos, rfl⟩⟩
  page := by
    intro l p member
    obtain ⟨rfl, rfl⟩ := Shape.mem_single.mp member
    exact {
      content := ⟨.nil, by rintro _ ⟨⟩⟩
      leaf_iff := by simp [Tree.empty, Node.leafRoot, NodeKind.isLeaf]
      below := by rintro _ ⟨⟩
      full := Nat.zero_le _
      minimum := fun notRoot => absurd rfl notRoot
      flag := by simp [Tree.empty, Node.leafRoot]
    }
  linked := by
    intro l
    cases l with
    | zero => exact ⟨rfl, trivial⟩
    | succ l => trivial
  root_low := rfl
  root_high := rfl
  resolves := fun p _ => ⟨p, .settled rfl⟩
  forwards := by rintro p q ⟨⟩
  previous := by rintro p q - ⟨⟩
  count := rfl

variable [DecidableEq ι]

/-- What one section of a thread does, whichever one it is and whatever it upgrades. -/
structure SectionPass (N : PageCapacity) (s : System ι K V) (shape : Shape) (θ : ι)
    (latched upgraded : Bool) (s' : System ι K V) (call : Call K V) (pc : Pc K V)
    (t' : Tree K V) (pc' : Pc K V)
    : Prop where
  running : (s.thread θ).status = .running call pc
  unfinished : pc.isFinal = false
  result : s.tree.latchedSection N.size latched upgraded pc = .ok (t', pc')
  effect : Effect N.size s.tree shape latched upgraded pc t' pc'
  target : s' = { s.setThread θ ((s.thread θ).resume call pc') with tree := t' }

/-- A section as a step, in which weak pointers upgrade as long as their pages are alive. -/
structure SectionStep (N : PageCapacity) (s : System ι K V) (shape : Shape) (θ : ι)
    (latched upgraded : Bool) (s' : System ι K V) (call : Call K V) (pc : Pc K V)
    (t' : Tree K V) (pc' : Pc K V)
    : Prop extends SectionPass N s shape θ latched upgraded s' call pc t' pc' where
  weak : ∀ page, pc.upgrades s.tree = some page → s.Alive page → upgraded = true

/-- A section of a thread succeeds in a good state. -/
theorem SystemOk.pass (ok : SystemOk N s shape) {call : Call K V} {pc : Pc K V}
    (running : (s.thread θ).status = .running call pc) (unfinished : pc.isFinal = false)
    (latched upgraded : Bool)
    : ∃ t' pc',
        SectionPass N s shape θ latched upgraded
          (s.afterSection θ call (s.tree.latchedSection N.size latched upgraded pc)) call pc t'
          pc' := by
  obtain ⟨t', pc', result, effect⟩ :=
    section_ok ok.inv N.three_le latched upgraded ((ok.thread θ).pc call pc running)
      (((ok.thread θ).settled call pc running).trans unfinished)
  exact ⟨t', pc', running, unfinished, result, effect, by rw [result]; rfl⟩

theorem SystemOk.section_step (ok : SystemOk N s shape) {latched upgraded : Bool}
    (step : (System.transitions ι K V N).step s (.pass θ latched upgraded) s')
    : ∃ call pc t' pc', SectionStep N s shape θ latched upgraded s' call pc t' pc' := by
  cases step with
  | @pass _ call pc _ _ running unfinished weak =>
      obtain ⟨t', pc', passed⟩ := ok.pass running unfinished latched upgraded
      exact ⟨call, pc, t', pc', passed, weak⟩

omit [DecidableEq ι] in
/-- A section that does not end a cursor's lookup only moves the program counter. -/
theorem Thread.resume_eq (thread : Thread K V) (call : Call K V) {pc : Pc K V}
    (settled : pc.isSettled = pc.isFinal)
    : thread.resume call pc = { status := .running call pc, cursors := thread.cursors } := by
  cases pc with
  | candidate cursor found => cases settled
  | _ => rfl

omit [DecidableEq ι] in
/-- After a section the thread stands where the section leads, or its cursor's call is done. -/
theorem Thread.resume_running (thread : Thread K V) (call : Call K V) (pc : Pc K V)
    : ∃ pc',
        (thread.resume call pc).status = .running call pc'
        ∧ pc'.isSettled = pc'.isFinal
        ∧ (pc' = pc ∨ pc.isSettled = true ∧ ∃ response, pc' = .done response) := by
  cases pc with
  | candidate => exact ⟨_, rfl, rfl, .inr ⟨rfl, _, rfl⟩⟩
  | _ => exact ⟨_, rfl, rfl, .inl rfl⟩

/-- A thread that has passed a section is good for the tree after it. -/
theorem SectionPass.threadOk {latched upgraded : Bool} {call : Call K V} {pc pc' : Pc K V}
    {t' : Tree K V} {shape' : Shape}
    (step : SectionPass N s shape θ latched upgraded s' call pc t' pc') (ok : SystemOk N s shape)
    (pcOk : PcOk t' shape' pc') (serves : ∀ served ∈ pc'.serves, pc.serves = some served)
    : ThreadOk t' shape' ((s.thread θ).resume call pc') := by
  have thread := ok.thread θ
  have mine : ∀ served ∈ pc'.serves, served = call :=
    fun served isServed => thread.serves call pc step.running served (serves served isServed)
  have others {cursor : Nat} {seek : Seek K} (isSeek : pc.seek = some (cursor, seek))
      {other : Nat} (differs : other ≠ cursor) : ((s.thread θ).cursors other).Ready := by
    refine thread.ready other (fun call' pc'' seek' running same => ?_)
    rw [step.running] at running
    cases running
    rw [isSeek] at same
    cases same
    exact differs rfl
  rcases step.effect.seek_eq with same | ⟨cursor, seek, found, isSeek, rfl⟩
  · obtain ⟨same, settled⟩ := same
    rw [Thread.resume_eq _ _ settled]
    cases isSeek : pc.seek with
    | none =>
        refine .of_seek_none pcOk mine settled (same.trans isSeek) (fun cursor => ?_)
        refine thread.ready cursor (fun call' pc'' seek running isSome => ?_)
        rw [step.running] at running
        cases running
        rw [isSeek] at isSome
        cases isSome
    | some sought =>
        obtain ⟨cursor, seek⟩ := sought
        obtain ⟨begun, seeking⟩ := thread.seeking call pc cursor seek step.running isSeek
        exact .of_seek cursor pcOk mine settled (same.trans isSeek) begun seeking
          (fun other differs => others isSeek differs)
  · obtain ⟨begun, -⟩ := thread.seeking call pc cursor seek step.running isSeek
    refine .of_seek_none trivial (by rintro _ ⟨⟩) rfl rfl (fun other => ?_)
    by_cases here : other = cursor
    · subst other
      rw [Function.update_self]
      exact begun.finish_ready found
    · rw [Function.update_of_ne here]
      exact others isSeek here

omit [DecidableEq ι] in
theorem Outcome.serves_of_mem {pc pc' : Pc K V} {map map' : SortedMap K V}
    (outcome : Outcome map pc map' pc')
    : ∀ served ∈ pc'.serves, pc.serves = some served := by
  cases outcome with
  | silent same serves => exact serves
  | point serves before after rest applies =>
      intro served isServed
      rw [serves, rest served isServed]
  | last at' after =>
      subst after
      rintro _ ⟨⟩

/-- What one section leaves behind: the shape after it and its effect on the map. -/
theorem SectionPass.preserved {latched upgraded : Bool} {call : Call K V} {pc pc' : Pc K V}
    {t' : Tree K V} (step : SectionPass N s shape θ latched upgraded s' call pc t' pc')
    (ok : SystemOk N s shape)
    : Preserved N.size s.tree shape pc t' pc' :=
  step.effect.preserved ok.inv N.three_le ((ok.thread θ).pc call pc step.running)

/-- The state after a section is good for every shape that the section leaves. -/
theorem SectionPass.systemOk {latched upgraded : Bool} {call : Call K V} {pc pc' : Pc K V}
    {t' : Tree K V} {shape' : Shape}
    (step : SectionPass N s shape θ latched upgraded s' call pc t' pc') (ok : SystemOk N s shape)
    (advance : Advance N.size s.tree shape t' shape' pc')
    : SystemOk N s' shape' := by
  obtain ⟨_, _, outcome⟩ := step.preserved ok
  obtain ⟨_, -, outcome⟩ := outcome ok.inv.map ok.inv.represents
  rw [step.target]
  refine ⟨advance.inv, fun other => ?_⟩
  show ThreadOk t' shape' ((s.setThread θ _).thread other)
  by_cases here : other = θ
  · subst other
    rw [System.setThread_same]
    exact step.threadOk ok advance.ok outcome.serves_of_mem
  · rw [System.setThread_other s _ here]
    exact (ok.thread other).evolve advance.evolves

/-- A new state of one thread does not disturb the others. -/
theorem SystemOk.setThread {thread : Thread K V} (ok : SystemOk N s shape)
    (good : ThreadOk s.tree shape thread)
    : SystemOk N (s.setThread θ thread) shape := by
  refine ⟨ok.inv, fun other => ?_⟩
  by_cases here : other = θ
  · subst other
    rwa [System.setThread_same]
  · rw [System.setThread_other s _ here]
    exact ok.thread other

/-- A call begins in a good state, and leaves one. -/
theorem SystemOk.invoke (ok : SystemOk N s shape) (idle : (s.thread θ).status = .idle)
    (call : Call K V)
    : SystemOk N
        (s.setThread θ {
          status := .running call (call.begin (s.thread θ).cursors).2
          cursors := (call.begin (s.thread θ).cursors).1
        })
        shape := by
  refine ok.setThread (call.begin_ok (fun cursor => ?_))
  refine (ok.thread θ).ready cursor (fun _ _ _ running => ?_)
  rw [idle] at running
  cases running

/-- A call returns in a good state, and leaves one. -/
theorem SystemOk.respond (ok : SystemOk N s shape) {call : Call K V} {response : Response K V}
    (done : (s.thread θ).status = .running call (.done response))
    : SystemOk N (s.setThread θ { s.thread θ with status := .idle }) shape := by
  refine ok.setThread (.idle rfl (fun cursor => ?_))
  refine (ok.thread θ).ready cursor (fun _ _ _ running => ?_)
  rw [done] at running
  cases running
  exact nofun

/-- Every step leads from a good state to a good state. -/
theorem SystemOk.step {label : Label ι K V} (ok : SystemOk N s shape)
    (step : (System.transitions ι K V N).step s label s')
    : ∃ shape', SystemOk N s' shape' := by
  cases label with
  | invoke θ call =>
      cases step with
      | invoke idle => exact ⟨shape, ok.invoke idle call⟩
  | pass θ latched upgraded =>
      obtain ⟨call, pc, t', pc', passed⟩ := ok.section_step step
      obtain ⟨shape', advance, -⟩ := passed.preserved ok
      exact ⟨shape', passed.systemOk ok advance⟩
  | respond θ call response =>
      cases step with
      | respond done => exact ⟨shape, ok.respond done⟩

omit [DecidableEq ι] in
/-- The system is good before the first call. -/
theorem System.Initial.ok (initial : s.Initial) : SystemOk N s Shape.single where
  inv := by
    rw [initial.tree]
    exact Inv.empty N.size
  thread θ := .idle (initial.idle θ) (fun cursor => (initial.cursors θ cursor).ready)

omit [DecidableEq ι] in
/-- The system stands for the empty map before the first call. -/
theorem System.Initial.represents (initial : s.Initial)
    : Represents s.tree Shape.single SortedMap.empty := by
  rw [initial.tree]
  rfl

/-- Every reachable state is good. -/
theorem reachable_ok (reached : (System.transitions ι K V N).Reachable s)
    : ∃ shape, SystemOk N s shape := by
  refine reached.invariant (I := fun s => ∃ shape, SystemOk N s shape) ?_ ?_
  · exact fun s initial => ⟨Shape.single, System.Initial.ok initial⟩
  · rintro s label s' - ⟨shape, ok⟩ step
    exact ok.step step

end BLink
