import BLink.Latching.DeferredWrites

/-! What a retained guard resolves.
A guard is created under the latch of the leaf in which its call has found the record. Nobody
else changes that leaf until the guard is dropped, so the guard keeps resolving the record, and
the value of a write guard is what has been written through it.
-/

namespace BLink

open Library

variable {ι K V : Type} [TotalOrd K]

-----------------------------------------------------------------------------------------
-- The record that a call has found
-----------------------------------------------------------------------------------------

/-- The latch that a call keeps on the leaf of the record that it returns. -/
def Call.guardMode : Call K V → Mode
  | .getMut _ _ => .exclusive
  | _ => .shared

/-- The record that a call leaves in the leaf when it returns `entry`. -/
def Call.leaves : Call K V → Entry K V → Entry K V
  | .getMut _ change, entry => { entry with value := change entry.value }
  | _, entry => entry

/-- The record that a section ends with. -/
def Pc.found : Pc K V → Option (Entry K V)
  | .done (.entry found) | .candidate _ found => found
  | _ => none

variable {N : Nat} {t t' : Tree K V} {shape : Shape} {pc pc' : Pc K V} {call : Call K V}
  {latched upgraded : Bool} {entry : Entry K V}

/-- A section that ends with a record leaves it in the one leaf that it has latched, at the index
that it has found.
-/
theorem Effect.leaves (effect : Effect N t shape latched upgraded pc t' pc')
    (inv : Inv N t shape) (found : pc'.found = some entry)
    (serves : ∀ served ∈ pc.serves, served = call)
    : ∃ p entries index,
        pc.soleLatch = some (.page p, call.guardMode)
        ∧ (t.page p).kind = .leaf entries
        ∧ pc.foundIndex entries = some index
        ∧ (t'.entries p)[index]? = some (call.leaves entry) := by
  have slot {p : PageId} {entries : List (Entry K V)} {index : Nat} {other : Option (Entry K V)}
      (kind : (t.page p).kind = .leaf entries) (here : entries[index]? = other)
      : (t.entries p)[index]? = other := by
    rwa [Tree.entries, kind]
  have sorted {p : PageId} {entries : List (Entry K V)} (member : p ∈ shape.row 0)
      (kind : (t.page p).kind = .leaf entries)
      : SortedBy (fun entry => entry.key.key) entries :=
    (inv.content_leaf member kind).1
  cases effect with
  | read same reads =>
      subst same
      cases reads with
      | @get key p entries owns =>
          cases serves _ rfl
          obtain ⟨equal, front, back, rfl, -⟩ := List.find?_eq_some_iff_append.mp found
          have search :=
            LeafNode.search_eq_found (sorted owns.member owns.kind) (by simpa using equal)
          refine ⟨_, _, front.length, rfl, owns.kind, ?_, slot owns.kind ?_⟩
          · simp [Pc.foundIndex, search]
          · simp only [List.getElem?_append_right (Nat.le_refl _), Nat.sub_self]
            rfl
      | @seekFound cursor key inclusive p entries _ _ member kind seeks source =>
          cases found
          have here := (BLink.seek_eq (sorted member kind) key inclusive).trans seeks
          rcases source with ⟨rfl, -⟩ | rfl <;>
            (cases serves _ rfl; exact ⟨_, _, _, rfl, kind, rfl, slot kind here⟩)
      | @firstFound consumer _ _ member kind =>
          cases consumer <;>
            (cases serves _ rfl
             exact ⟨_, _, _, rfl, kind, rfl, slot kind (List.head?_eq_getElem?.symm.trans found)⟩)
      | lastFound _ kind =>
          cases serves _ rfl
          exact ⟨_, _, _, rfl, kind, rfl, slot kind (List.getLast?_eq_getElem?.symm.trans found)⟩
      | _ => cases found
  | write writes =>
      cases writes with
      | @getMutFound key write p front entry back t' owns equal updated =>
          cases serves _ rfl
          cases found
          have search := LeafNode.search_eq_found (sorted owns.member owns.kind) equal
          refine ⟨_, _, front.length, rfl, owns.kind, ?_, ?_⟩
          · simp [Pc.foundIndex, search]
          · rw [Tree.entries, updated.page]
            simp [Task.call, Call.leaves]
      | _ => cases found
  | insert inserts =>
      cases inserts with
      | @repairSkipped _ _ _ _ target | @repaired _ _ _ _ _ target =>
          cases target <;> cases found
      | _ => cases found
  | remove removes =>
      cases removes with
      | @rootStays _ result => cases result <;> cases found
      | _ => cases found
  | repair repairs => cases repairs <;> cases found

/-- A cursor yields its candidate, or nothing. -/
theorem Cursor.finish_yields {cursor : Cursor K} {candidate : Option (Entry K V)}
    (yields : (cursor.finish candidate).2 = some entry)
    : candidate = some entry := by
  cases candidate with
  | none => cases cursor <;> cases yields
  | some found =>
      cases cursor with
      | iter => exact yields
      | range start stop =>
          simp only [finish] at yields
          split_ifs at yields
          exact yields

/-- A call returns the record that its last section has ended with. -/
theorem Thread.resume_found {thread : Thread K V} {call' : Call K V}
    (status
      : (thread.resume call pc).status = .running call' (.done (.entry (some entry))))
    : call' = call ∧ pc.found = some entry := by
  cases pc with
  | candidate cursor candidate =>
      rw [resume, Status.running.injEq, Pc.done.injEq, Response.entry.injEq] at status
      exact ⟨status.1.symm, Cursor.finish_yields status.2⟩
  | done =>
      cases status
      exact ⟨rfl, rfl⟩
  | _ => cases status

variable {capacity : PageCapacity} {m m' : Machine ι K V} {levels : Levels PageId} {θ : ι}

/-- What each thread returns lies in the leaf that it still has latched, at the index that it has
found.
-/
def Machine.Located (m : Machine ι K V) : Prop :=
  ∀ θ call entry,
    (m.system.thread θ).status = .running call (.done (.entry (some entry)))
    → ∀ p mode,
        (.page p, mode) ∈ (m.worker θ).held
        → mode = call.guardMode
          ∧ ∃ index,
              m.index θ = some index
              ∧ (m.system.tree.entries p)[index]? = some (call.leaves entry)

/-- Whatever else a thread does, it keeps what it returns latched, or gives it up. -/
theorem Machine.Located.keep (located : m.Located)
    (thread
      : ∀ θ call entry,
          (m'.system.thread θ).status = .running call (.done (.entry (some entry)))
          → ∀ holding ∈ (m'.worker θ).held,
              (m.system.thread θ).status = .running call (.done (.entry (some entry)))
              ∧ holding ∈ (m.worker θ).held)
    (index : m'.index = m.index)
    (agree : ∀ θ, Agree m.system.tree m'.system.tree (m.held (some θ)))
    : m'.Located := by
  intro θ call entry status p mode member
  obtain ⟨status, member⟩ := thread θ call entry status _ member
  obtain ⟨same, i, isIndex, slot⟩ := located θ call entry status p mode member
  refine ⟨same, i, by rwa [index], ?_⟩
  rwa [Tree.entries, (agree θ).page p mode member]

variable [DecidableEq ι]

/-- A thread may give up latches. -/
theorem Machine.Located.setWorker {worker : Worker} (located : m.Located)
    (fewer : worker.held ⊆ (m.worker θ).held)
    : (m.setWorker θ worker).Located := by
  refine located.keep (fun other call entry status holding member => ⟨status, ?_⟩)
    rfl (fun _ => ⟨fun _ _ => rfl, fun _ _ _ => rfl⟩)
  by_cases mine : other = θ
  · subst mine
    rw [show (m.setWorker other worker).worker other = worker from Function.update_self ..]
      at member
    exact fewer member
  · rwa [show (m.setWorker θ worker).worker other = m.worker other from
      Function.update_of_ne mine ..] at member

/-- A thread without a latch, or without a result, keeps no record latched. -/
theorem Machine.Located.setThread {thread : Thread K V} (located : m.Located)
    (nothing
      : (m.worker θ).held = []
        ∨ ∀ call entry, thread.status ≠ .running call (.done (.entry (some entry))))
    : (m.setThread θ thread).Located := by
  refine located.keep (fun other call entry status holding member => ⟨?_, member⟩)
    rfl (fun _ => ⟨fun _ _ => rfl, fun _ _ _ => rfl⟩)
  by_cases mine : other = θ
  · subst mine
    rw [Machine.setThread, System.setThread_same] at status
    rcases nothing with nothing | nothing
    · rw [Machine.setThread, nothing] at member
      cases member
    · exact absurd status (nothing call entry)
  · rwa [Machine.setThread, System.setThread_other m.system thread mine] at status

/-- A thread that has no result yet may acquire a latch. -/
theorem Machine.Located.grant {pc : Pc K V} {call : Call K V} {latch : Latch} {mode : Mode}
    (located : m.Located) (running : (m.system.thread θ).status = .running call pc)
    (unfinished : pc.isFinal = false)
    : (m.grant capacity θ pc latch mode).Located := by
  refine located.keep (fun other call' entry status holding member => ⟨status, ?_⟩)
    rfl (fun _ => ⟨fun _ _ => rfl, fun _ _ _ => rfl⟩)
  by_cases mine : other = θ
  · subst mine
    cases running.symm.trans status
    cases unfinished
  · rwa [show (m.grant capacity θ pc latch mode).worker other = m.worker other from
      Function.update_of_ne mine ..] at member

/-- A thread that makes the changes of its section has found its record in a leaf that it has
latched.
-/
theorem LatchedPass.located {pc pc' : Pc K V} {call : Call K V} {latched upgraded : Bool}
    {t' : Tree K V} {shape' : Shape} {levels' : Levels PageId}
    (pass
      : LatchedPass capacity m shape levels θ latched upgraded m' call pc t' pc' shape' levels')
    (index : m'.index = Function.update m.index θ (m.foundIndex θ pc))
    (ok : MachineOk capacity m shape levels) (located : m.Located)
    : m'.Located := by
  have held (other : ι) : (m'.worker other).held = (m.worker other).held :=
    congrFun pass.held_eq (some other)
  intro other call' entry status p mode member
  rw [held] at member
  by_cases mine : other = θ
  · subst mine
    have resumed : (m'.system.thread other).status
        = ((m.system.thread other).resume call pc').status := by
      rw [pass.passed.target]
      exact congrArg Thread.status (System.setThread_same ..)
    rw [resumed] at status
    obtain ⟨sameCall, found⟩ := Thread.resume_found status
    subst sameCall
    have serves := (ok.arranged.ok.thread other).serves call' pc pass.passed.running
    obtain ⟨q, entries, i, sole, kind, isIndex, slot⟩ :=
      pass.passed.effect.leaves ok.arranged.ok.inv found serves
    have mine := pass.stage.held_of_sole sole
    rw [mine] at member
    cases List.mem_singleton.mp member
    refine ⟨rfl, i, ?_, by rwa [pass.tree_eq]⟩
    rw [index, Function.update_self, Machine.foundIndex, mine]
    simp only [kind, isIndex]
  · have same : m'.system.thread other = m.system.thread other := by
      rw [pass.passed.target]
      exact System.setThread_other m.system _ mine
    rw [same] at status
    obtain ⟨sameMode, i, isIndex, slot⟩ := located other call' entry status p mode member
    have agree := pass.agree ok (fun equal => mine (Option.some.inj equal))
    refine ⟨sameMode, i, ?_, ?_⟩
    · rwa [index, Function.update_of_ne mine]
    · rwa [pass.tree_eq, Tree.entries, agree.page p mode member]

/-- A step of the machine changes nothing that a public guard retains. -/
theorem MachineOk.agree_guards {action : Action ι K V} (ok : MachineOk capacity m shape levels)
    (step : (Machine.transitions ι K V capacity).step m action m')
    : Agree m.system.tree m'.system.tree m.guards := by
  cases step with
  | act running acts weak =>
      obtain ⟨t', pc', shape', levels', pass⟩ := ok.perform running acts _
      rw [pass.tree_eq]
      exact pass.agree ok (Option.some_ne_none _).symm
  | _ => exact ⟨fun _ _ => rfl, fun _ _ _ => rfl⟩

/-- Every step keeps what threads return latched. -/
theorem Machine.Located.step {action : Action ι K V} (located : m.Located)
    (ok : MachineOk capacity m shape levels)
    (step : (Machine.transitions ι K V capacity).step m action m')
    : m'.Located := by
  cases step with
  | @invoke θ call idle =>
      have running : (m.setThread θ {
          status := .running call (call.begin (m.system.thread θ).cursors).2
          cursors := (call.begin (m.system.thread θ).cursors).1
        }).Located := by
        refine located.setThread (.inl ?_)
        have worker := ok.worker θ
        rw [idle] at worker
        generalize m.worker θ = current at worker
        cases worker
        rfl
      exact running.setWorker (List.nil_subset _)
  | respond done free =>
      exact located.setThread (.inr (fun _ _ running => by cases running))
  | enter => exact located.setWorker (List.nil_subset _)
  | acquire running waits available =>
      obtain ⟨unfinished, -⟩ := ok.acquired running waits (by simp) (by simp)
      exact located.grant running unfinished
  | latch running tries available =>
      obtain ⟨unfinished, -⟩ := ok.acquired running tries (by simp) (by simp)
      exact located.grant running unfinished
  | miss tries => exact located.setWorker (List.Subset.refl _)
  | hop hops =>
      refine located.setWorker ?_
      rw [hops]
      exact List.subset_cons_self _ _
  | act running acts weak =>
      obtain ⟨t', pc', shape', levels', pass⟩ := ok.perform running acts _
      exact pass.located rfl ok located
  | @load θ call pc running loads =>
      obtain ⟨unfinished, acquired⟩ := ok.acquired running loads (by simp) (by simp)
      obtain ⟨nothing, -⟩ := acquired.load
      exact (located.setThread (.inl nothing)).setWorker (List.nil_subset _)
  | @count θ tally counts =>
      have kept : (m.setWorker θ { m.worker θ with phase := .release }).Located :=
        located.setWorker (List.Subset.refl _)
      exact kept
  | @release θ newest rest releases =>
      refine located.setWorker ?_
      rw [releases]
      exact List.subset_cons_self _ _
  | @retain θ call entry holding done last =>
      have resting : (m.setWorker θ .resting).Located := located.setWorker (List.nil_subset _)
      exact resting
  | drop => exact located

/-- Two guards of one leaf are both read guards. -/
def Machine.GuardsApart (m : Machine ι K V) : Prop :=
  m.guards.Pairwise (fun first second =>
    first.1 = second.1 → first.2 = .shared ∧ second.2 = .shared)

theorem Machine.GuardsApart.step {action : Action ι K V} (apart : m.GuardsApart)
    (ok : MachineOk capacity m shape levels)
    (step : (Machine.transitions ι K V capacity).step m action m')
    : m'.GuardsApart := by
  cases step with
  | @retain θ call entry holding done last =>
      refine List.pairwise_cons.mpr ⟨fun guard retained same => ?_, apart⟩
      obtain ⟨latch, mode⟩ := holding
      obtain ⟨other, mode'⟩ := guard
      subst same
      have mine : (latch, mode) ∈ m.held (some θ) := by
        rw [Machine.held, last]
        exact List.mem_cons_self
      cases mode with
      | exclusive =>
          exact absurd retained (ok.exclusive (some θ) none (Option.some_ne_none θ) _ _ mine)
      | shared =>
          cases mode' with
          | exclusive =>
              exact absurd mine
                (ok.exclusive none (some θ) (Option.some_ne_none θ).symm _ _ retained)
          | shared => exact ⟨rfl, rfl⟩
  | drop retained => exact apart.sublist List.erase_sublist
  | _ => exact apart

omit [DecidableEq ι] in
/-- A latch with a write guard has no other guard. -/
theorem Machine.GuardsApart.eq_exclusive {latch : Latch} {mode : Mode} (apart : m.GuardsApart)
    (write : (latch, .exclusive) ∈ m.guards) (other : (latch, mode) ∈ m.guards)
    : mode = .exclusive := by
  by_contra differ
  have symmetric : Std.Symm (fun first second : Latch × Mode =>
      first.1 = second.1 → first.2 = .shared ∧ second.2 = .shared) :=
    ⟨fun first second both same => (both same.symm).symm⟩
  have both := apart.forall write other (fun same => differ (Prod.mk.inj same).2.symm) rfl
  cases both.1

/-- The system is good, records that threads return are latched, and guards do not exclude each
other.
-/
structure Machine.Guarded (capacity : PageCapacity) (m : Machine ι K V) : Prop where
  ok : ∃ shape levels, MachineOk capacity m shape levels
  located : m.Located
  apart : m.GuardsApart

theorem Machine.Guarded.step {action : GuardedAction ι K V} (guarded : m.Guarded capacity)
    (step : (Machine.guarded ι K V capacity).step m action m')
    : m'.Guarded capacity := by
  obtain ⟨shape, levels, ok⟩ := guarded.ok
  refine ⟨ok.guardedStep step, ?_, ?_⟩
  · cases step with
    | machine step => exact guarded.located.step ok step
    | write idle retained resolves changed =>
        obtain ⟨front, back, -, owns, updated⟩ := ok.guarded retained resolves changed
        exact guarded.located.keep (fun _ _ _ status _ member => ⟨status, member⟩) rfl
          (ok.agree_update retained updated)
  · cases step with
    | machine step => exact guarded.apart.step ok step
    | write => exact guarded.apart

theorem guarded_of_reachable (reached : (Machine.guarded ι K V capacity).Reachable m)
    : m.Guarded capacity := by
  refine reached.invariant (I := fun m => m.Guarded capacity) ?_ ?_
  · intro m initial
    have idle (θ : ι) := initial.system.idle θ
    refine ⟨⟨Shape.single, Levels.first, initial.ok⟩, ?_, ?_⟩
    · intro θ call entry status
      rw [idle θ] at status
      cases status
    · rw [Machine.GuardsApart, initial.guards]
      exact .nil
  · intro m action m' _ guarded step
    exact guarded.step step

-----------------------------------------------------------------------------------------
-- Guards while they are retained
-----------------------------------------------------------------------------------------

/-- What a step does to the value of a guarded entry by writing through its guard. -/
def GuardedAction.writes (guard : EntryRef) : GuardedAction ι K V → V → V
  | .machine _, value => value
  | .write _ other change _, value => if other.toEntryRef = guard then change value else value

/-- The value of a guarded entry after everything that has been written through its guard. -/
def EntryRef.written (guard : EntryRef)
    (trace : List (Transition (Machine ι K V) (GuardedAction ι K V))) (value : V)
    : V :=
  trace.foldl (fun value step => step.label.writes guard value) value

omit [DecidableEq ι] [TotalOrd K] in
/-- A change through a guard reaches no other entry of its leaf. -/
theorem EntryMut.valueMut_entry {writer : EntryMut} {guard : EntryRef} {change : V → V}
    {entry other : Entry K V} {t t' : Tree K V} (page : guard.page = writer.page)
    (resolves : writer.entry t = .ok entry) (changed : writer.valueMut change t = .ok t')
    (before : guard.entry t = .ok other)
    : guard.entry t'
      = .ok (if writer.toEntryRef = guard
          then { other with value := change other.value } else other) := by
  obtain ⟨front, back, kind, index, result⟩ := EntryMut.valueMut_eq_ok writer resolves change
  cases changed.symm.trans result
  rw [EntryRef.entry_eq_ok] at before ⊢
  obtain ⟨entries, sameKind, slot⟩ := before
  rw [page, kind] at sameKind
  cases sameKind
  refine ⟨front ++ { entry with value := change entry.value } :: back, ?_, ?_⟩
  · rw [page]
    simp
  · by_cases same : writer.toEntryRef = guard
    · subst same
      rw [if_pos rfl, ← index]
      rw [← index] at slot
      have found : entry = other := by simpa using slot
      simp [found]
    · have differ : guard.index ≠ front.length := by
        intro equal
        obtain ⟨p, i⟩ := guard
        cases page
        cases equal.trans index
        exact same rfl
      rw [if_neg same, ← slot]
      rcases Nat.lt_or_gt_of_ne differ with before | after
      · rw [List.getElem?_append_left before, List.getElem?_append_left before]
      · obtain ⟨i, isSucc⟩ := Nat.exists_eq_add_of_lt after
        rw [isSucc, List.getElem?_append_right (by omega), List.getElem?_append_right (by omega)]
        simp [Nat.add_assoc]

/-- A step leaves a guarded entry alone, up to what it writes through the guard. -/
theorem Machine.Guarded.entry_step {guard : EntryRef} {mode : Mode} {entry : Entry K V}
    {action : GuardedAction ι K V} (guarded : m.Guarded capacity)
    (retained : (.page guard.page, mode) ∈ m.guards)
    (resolves : guard.entry m.system.tree = .ok entry)
    (step : (Machine.guarded ι K V capacity).step m action m')
    : guard.entry m'.system.tree
      = .ok { entry with value := action.writes guard entry.value } := by
  obtain ⟨shape, levels, ok⟩ := guarded.ok
  have untouched {t' : Tree K V} (same : t'.page guard.page = m.system.tree.page guard.page)
      : guard.entry t' = .ok entry := by
    rwa [EntryRef.entry, same]
  cases step with
  | machine step => exact untouched ((ok.agree_guards step).page guard.page mode retained)
  | @write θ writer change other t' idle write writes changed =>
      by_cases page : guard.page = writer.page
      · rw [EntryMut.valueMut_entry page writes changed resolves, GuardedAction.writes]
        split_ifs <;> rfl
      · obtain ⟨front, back, -, owns, updated⟩ := ok.guarded write writes changed
        have differ : writer.toEntryRef ≠ guard := by
          intro same
          subst same
          exact page rfl
        rw [GuardedAction.writes, if_neg differ]
        exact untouched (updated.other guard.page page)

omit [DecidableEq ι] in
theorem EntryRef.written_snoc {guard : EntryRef} {value : V}
    {trace : List (Transition (Machine ι K V) (GuardedAction ι K V))}
    {last : Transition (Machine ι K V) (GuardedAction ι K V)}
    : guard.written (trace ++ [last]) value
      = last.label.writes guard (guard.written trace value) := by
  rw [written, List.foldl_append]
  rfl

/-- While a guard is retained, only what is written through it changes its entry. -/
theorem Machine.Guarded.entry_run {guard : EntryRef} {mode : Mode} {entry : Entry K V}
    {trace : List (Transition (Machine ι K V) (GuardedAction ι K V))}
    (guarded : m.Guarded capacity) (resolves : guard.entry m.system.tree = .ok entry)
    (run : (Machine.guarded ι K V capacity).Run m trace m')
    (retained : ∀ step ∈ trace, (.page guard.page, mode) ∈ step.source.guards)
    : m'.Guarded capacity
      ∧ guard.entry m'.system.tree
        = .ok { entry with value := guard.written trace entry.value } := by
  induction run with
  | nil => exact ⟨guarded, resolves⟩
  | @snoc trace middle action finish run step ih =>
      obtain ⟨good, kept⟩ := ih (fun earlier member => retained earlier (by simp [member]))
      refine ⟨good.step step, ?_⟩
      rw [EntryRef.written_snoc]
      exact good.entry_step (retained ⟨middle, action, finish⟩ (by simp)) kept step

/-- Through a retained read guard nothing is written. -/
theorem Machine.Guarded.written_shared {guard : EntryRef} {value : V}
    {trace : List (Transition (Machine ι K V) (GuardedAction ι K V))}
    (guarded : m.Guarded capacity) (run : (Machine.guarded ι K V capacity).Run m trace m')
    (retained : ∀ step ∈ trace, (.page guard.page, .shared) ∈ step.source.guards)
    : m'.Guarded capacity ∧ guard.written trace value = value := by
  induction run with
  | nil => exact ⟨guarded, rfl⟩
  | @snoc trace middle action finish run step ih =>
      obtain ⟨good, kept⟩ := ih (fun earlier member => retained earlier (by simp [member]))
      refine ⟨good.step step, ?_⟩
      have reads : (Latch.page guard.page, Mode.shared) ∈ middle.guards :=
        retained ⟨middle, action, finish⟩ (by simp)
      rw [EntryRef.written_snoc, kept]
      cases step with
      | machine => rfl
      | @write θ writer change other t' idle write writes changed =>
          refine if_neg (fun same => ?_)
          subst same
          cases good.apart.eq_exclusive write reads

/-- As long as the guard of what `call` has found is retained after `m`, its key is the found
one, and its value is what has been written through it; through a read guard nothing is.
-/
def EntryRef.ResolvesFrom (guard : EntryRef) (capacity : PageCapacity) (m : Machine ι K V)
    (call : Call K V) (entry : Entry K V)
    : Prop :=
  ∀ trace m',
    (Machine.guarded ι K V capacity).Run m trace m'
    → (∀ step ∈ trace, (.page guard.page, call.guardMode) ∈ step.source.guards)
    → guard.key m'.system.tree = .ok entry.key.key
      ∧ guard.value m'.system.tree = .ok (guard.written trace (call.leaves entry).value)
      ∧ (call.guardMode = .shared → guard.value m'.system.tree = .ok entry.value)

/-- The guard that a thread makes of its last latch and of the index that its call has found
resolves the found record until it is dropped, whatever all threads do meanwhile.
-/
theorem guard_resolves (reached : (Machine.guarded ι K V capacity).Reachable m)
    (step : (Machine.guarded ι K V capacity).step m (.machine (.retain θ)) m')
    : ∃ call entry guard,
        (m.system.thread θ).status = .running call (.done (.entry (some entry)))
        ∧ m.entryRef θ = some guard
        ∧ m'.guards = (.page guard.page, call.guardMode) :: m.guards
        ∧ guard.ResolvesFrom capacity m' call entry := by
  have guarded := guarded_of_reachable reached
  have after := guarded.step step
  cases step with
  | machine step =>
  cases step with
  | @retain θ call entry holding done last =>
  obtain ⟨shape, levels, ok⟩ := guarded.ok
  have worker := ok.worker θ
  rw [done, last] at worker
  cases worker with
  | acquiring _ acquired => cases acquired.stage
  | releasing found =>
  obtain ⟨p, entries, isPage, -, kind⟩ := found trivial holding List.mem_cons_self
  obtain ⟨latch, mode⟩ := holding
  subst isPage
  have member : (Latch.page p, mode) ∈ (m.worker θ).held := by
    rw [last]
    exact List.mem_cons_self
  obtain ⟨sameMode, i, isIndex, slot⟩ := guarded.located θ call entry done p mode member
  subst sameMode
  rw [Tree.entries, kind] at slot
  have resolves : (EntryRef.new p i).entry m.system.tree = .ok (call.leaves entry) :=
    EntryRef.entry_eq_ok.mpr ⟨entries, kind, slot⟩
  refine ⟨call, entry, .new p i, done, ?_, rfl, fun trace m'' run retained => ?_⟩
  · rw [Machine.entryRef, last, isIndex]
  obtain ⟨-, kept⟩ := after.entry_run resolves run retained
  have key : (call.leaves entry).key = entry.key := by
    cases call <;> rfl
  refine ⟨?_, ?_, fun reads => ?_⟩
  · rw [EntryRef.key, kept, ← key]
    rfl
  · rw [EntryRef.value, kept]
    rfl
  · rw [reads] at retained
    rw [EntryRef.value, kept, (after.written_shared run retained).2]
    cases call <;> first | rfl | cases reads

theorem Machine.retain_of_play {threads : List ι} {action : Action ι K V}
    (played : m.play capacity threads (.retain θ) = some (action, m'))
    : action = .retain θ := by
  rw [Machine.play] at played
  split at played
  · cases played
    rfl
  · cases played

/-- The guard of the second record of a leaf, which `get_mut` has found. -/
theorem guard_resolves_found
    : ∃ m m' : Machine (Fin 2) Nat Nat,
        (Machine.guarded (Fin 2) Nat Nat .smallest).Reachable m
        ∧ (Machine.guarded (Fin 2) Nat Nat .smallest).step m (.machine (.retain 0)) m'
        ∧ m.entryRef 0 = some (.new 0 1)
        ∧ ∃ call entry,
            (m.system.thread 0).status = .running call (.done (.entry (some entry)))
            ∧ m'.guards = (.page 0, call.guardMode) :: m.guards
            ∧ (EntryRef.new 0 1).ResolvesFrom .smallest m' call entry := by
  have plays : ((Machine.fresh : Machine (Fin 2) Nat Nat).replay .smallest [0, 1]
      (Turn.whole 0 (.insert 1 7) 13 ++ Turn.whole 1 (.insert 2 8) 13
        ++ .invoke 0 (.getMut (.ofKey 2) id) :: List.replicate 10 (.advance 0))).map (fun played =>
          ((played.2.play .smallest [0, 1] (.retain 0)).isSome, played.2.entryRef 0))
      = some (true, some (.new 0 1)) := by
    decide +kernel
  obtain ⟨⟨trace, m⟩, replayed, state⟩ := Option.map_eq_some_iff.mp plays
  obtain ⟨played, second⟩ := Prod.mk.inj state
  obtain ⟨⟨action, m'⟩, played⟩ := Option.isSome_iff_exists.mp played
  cases Machine.retain_of_play played
  have reached : (Machine.guarded (Fin 2) Nat Nat .smallest).Reachable m :=
    ⟨_, _, Machine.fresh_initial,
      Machine.guarded_of_run (Machine.run_of_replay (by decide) replayed)⟩
  have retained : (Machine.guarded (Fin 2) Nat Nat .smallest).step m (.machine (.retain 0)) m' :=
    .machine (Machine.step_of_play (by decide) played)
  obtain ⟨call, entry, guard, done, isGuard, guards, resolves⟩ := guard_resolves reached retained
  obtain rfl : guard = .new 0 1 := Option.some.inj (isGuard.symm.trans second)
  exact ⟨m, m', reached, retained, second, call, entry, done, guards, resolves⟩

end BLink
