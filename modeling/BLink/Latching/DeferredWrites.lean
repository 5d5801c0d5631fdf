import BLink.Latching.Linearization
import BLink.Model.Guards

/-! Values that are changed through retained write guards.
A change through a guard is a mutable access of its own: it takes effect at once for everybody
who reaches the leaf after the guard is dropped, and nobody can reach it before.
-/

namespace BLink

open Library

variable {ι K V : Type} [TotalOrd K] {N : Nat} {t t' : Tree K V} {shape : Shape}

omit [TotalOrd K] in
/-- What a guard resolves is a record of its leaf. -/
theorem EntryRef.entry_eq_ok {guard : EntryRef} {entry : Entry K V}
    : guard.entry t = .ok entry
      ↔ ∃ entries, (t.page guard.page).kind = .leaf entries ∧ entries[guard.index]? = some entry := by
  rw [EntryRef.entry]
  cases kind : (t.page guard.page).kind with
  | internal | redirect => simp
  | leaf entries =>
      unfold Array.index
      cases slot : entries[guard.index]? <;> simp [slot]

omit [TotalOrd K] in
/-- Changing the value of a guarded entry rewrites that record in its leaf. -/
theorem EntryMut.valueMut_eq_ok (guard : EntryMut) {entry : Entry K V}
    (resolves : guard.entry t = .ok entry) (change : V → V)
    : ∃ front back,
        (t.page guard.page).kind = .leaf (front ++ entry :: back)
        ∧ front.length = guard.index
        ∧ guard.valueMut change t
          = .ok (t.setPage guard.page {
              t.page guard.page with
              kind := .leaf (front ++ { entry with value := change entry.value } :: back)
            }) := by
  obtain ⟨entries, kind, slot⟩ := EntryRef.entry_eq_ok.mp resolves
  obtain ⟨inside, isEntry⟩ := List.getElem?_eq_some_iff.mp slot
  have split : entries = entries.take guard.index ++ entry :: entries.drop (guard.index + 1) := by
    rw [← isEntry, List.getElem_cons_drop inside, List.take_append_drop]
  have length : (entries.take guard.index).length = guard.index := by
    rw [List.length_take]
    omega
  generalize entries.take guard.index = front at split length
  generalize entries.drop (guard.index + 1) = back at split
  subst split
  refine ⟨front, back, kind, length, ?_⟩
  simp only [valueMut, kind, ← length, Array.index_append, Array.assign_append, ok_bind]
  rfl

variable {capacity : PageCapacity} {m m' : Machine ι K V} {levels : Levels PageId} {θ : ι}
  {guard : EntryMut} {change : V → V} {entry : Entry K V}

/-- A retained write guard guards a record of a leaf that owns the record's key. -/
theorem MachineOk.guarded (ok : MachineOk capacity m shape levels)
    (retained : (.page guard.page, .exclusive) ∈ m.guards)
    (resolves : guard.entry m.system.tree = .ok entry)
    (changed : guard.valueMut change m.system.tree = .ok t')
    : ∃ front back,
        front.length = guard.index
        ∧ Owns m.system.tree shape guard.page (.ofKey entry.key.key) (front ++ entry :: back)
        ∧ LeafUpdated capacity.size m.system.tree t' guard.page (front ++ entry :: back)
            (front ++ { entry with value := change entry.value } :: back) := by
  have inv := ok.arranged.ok.inv
  obtain ⟨front, back, kind, index, result⟩ := EntryMut.valueMut_eq_ok guard resolves change
  cases changed.symm.trans result
  have member : guard.page ∈ shape.row 0 := inv.mem_of_isLeaf (ok.guard _ retained)
  have inside : entry ∈ m.system.tree.entries guard.page := by
    rw [Tree.entries, kind]
    simp
  refine ⟨front, back, index, ⟨member, kind, ?_⟩, updated_of_replace inv member _ kind⟩
  exact Inv.covers_of_within (inv.within member inside) Std.ReflOrd.compare_self

/-- The machine with another tree. -/
def Machine.setTree (m : Machine ι K V) (t : Tree K V) : Machine ι K V :=
  { m with system := { m.system with tree := t } }

/-- A change under a retained write latch is seen by nobody who holds another latch. -/
theorem MachineOk.agree_update {p : PageId} {old new : List (Entry K V)}
    (ok : MachineOk capacity m shape levels) (retained : (.page p, .exclusive) ∈ m.guards)
    (updated : LeafUpdated capacity.size m.system.tree t' p old new) (θ : ι)
    : Agree m.system.tree t' (m.held (some θ)) where
  root _ _ := updated.root
  page q mode member := by
    refine updated.other q (fun same => ?_)
    subst same
    exact ok.exclusive none (some θ) (Option.some_ne_none θ).symm _ mode retained member

/-- A change through a retained write guard leads from a good state to a good state. -/
theorem MachineOk.setTree {p : PageId} {old new : List (Entry K V)}
    (ok : MachineOk capacity m shape levels) (retained : (.page p, .exclusive) ∈ m.guards)
    (updated : LeafUpdated capacity.size m.system.tree t' p old new)
    : MachineOk capacity (m.setTree t') shape levels := by
  have system := ok.arranged.ok
  have member : p ∈ shape.row 0 := system.inv.mem_of_isLeaf (ok.guard _ retained)
  have evolves : Evolves m.system.tree shape t' shape := updated.framed.evolves
  refine {
    arranged := ⟨⟨updated.preserves system.inv member, fun θ => ?_⟩, ?_⟩
    exclusive := ok.exclusive
    allocated := fun holder q mode holds => ?_
    worker := fun θ => ?_
    guard := fun holding holds => ?_
  }
  · exact (system.thread θ).evolve evolves
  · exact updated.sameLinks.ordered system.inv ok.arranged.ordered
  · exact Nat.lt_of_lt_of_le (ok.allocated holder q mode holds) evolves.pages
  · exact (ok.worker θ).agree (ok.agree_update retained updated θ) evolves.retired evolves.pages
  · obtain ⟨q, entries, isPage, allocated, kind⟩ := ok.guard holding holds
    have stays : q < t'.pages := Nat.lt_of_lt_of_le allocated evolves.pages
    by_cases same : q = p
    · subst same
      exact ⟨q, new, isPage, stays, congrArg Node.kind updated.page⟩
    · exact ⟨q, entries, isPage, stays, (congrArg Node.kind (updated.other q same)).trans kind⟩

variable [DecidableEq ι]

/-- Every step, also a change through a guard, leads from a good state to a good state. -/
theorem MachineOk.guardedStep {action : GuardedAction ι K V}
    (ok : MachineOk capacity m shape levels)
    (step : (Machine.guarded ι K V capacity).step m action m')
    : ∃ shape' levels', MachineOk capacity m' shape' levels' := by
  cases step with
  | machine step => exact ok.step step
  | write idle retained resolves changed =>
      obtain ⟨front, back, -, owns, updated⟩ := ok.guarded retained resolves changed
      exact ⟨shape, levels, ok.setTree retained updated⟩

-----------------------------------------------------------------------------------------
-- Linearizability
-----------------------------------------------------------------------------------------

/-- The events of one step: a change through a guard is a mutable access of its own. -/
def guardedEvents : GuardedAction ι K V → List (Event ι (Call K V) (Response K V))
  | .machine action => (atomicEvent action).toList
  | .write θ _ change entry =>
      [
        .invoke θ (.getMut (.ofKey entry.key.key) change),
        .respond θ (.entry (some entry))
      ]

omit [DecidableEq ι] in
/-- A change through a guard changes the current and the published map alike. -/
theorem Publishes.write {owed : ι → Option (Change K V)} {current published : SortedMap K V}
    (publishes : Publishes capacity m shape levels owed current published)
    (retained : (.page guard.page, .exclusive) ∈ m.guards)
    (resolves : guard.entry m.system.tree = .ok entry)
    (changed : guard.valueMut change m.system.tree = .ok t')
    : ∃ published',
        (m.setTree t').Published capacity published'
        ∧ Applies (.getMut (.ofKey entry.key.key) change) published (.entry (some entry))
            published' := by
  have ok := publishes.ok
  have inv := ok.arranged.ok.inv
  obtain ⟨front, back, -, owns, updated⟩ := ok.guarded retained resolves changed
  have equal : (Query.ofKey entry.key.key).cmp entry.key.key = .eq := Std.ReflOrd.compare_self
  obtain ⟨represents, found⟩ := publishes.represents.modify inv owns.member equal updated
  have free : Free owed (.ofKey entry.key.key) :=
    publishes.free owns.member owns.covers none retained (by rintro _ ⟨⟩)
  have applies : Applies (.getMut (.ofKey entry.key.key) change) current (.entry (some entry))
      (current.modify (.ofKey entry.key.key) change) :=
    ⟨rfl, some entry, rfl, found.symm⟩
  have shows := Shows.of_lags publishes.lags rfl free applies
  generalize current.modify (.ofKey entry.key.key) change = current' at represents shows
  cases shows with
  | @now _ published' applies lags size shown =>
      refine ⟨published', ⟨shape, levels, owed, _, ok.setTree retained updated, represents, lags,
        shown.trans publishes.counter, fun θ => ?_⟩, applies⟩
      exact (publishes.owes θ).congr rfl rfl (ok.agree_update retained updated θ)
  | added isInsert => cases isInsert
  | removed isRemove => cases isRemove

/-- Every step, also a change through a guard, is a sequence of steps of the published map. -/
theorem Machine.Published.guardedStep {published : SortedMap K V} {action : GuardedAction ι K V}
    (shown : m.Published capacity published)
    (step : (Machine.guarded ι K V capacity).step m action m')
    : ∃ published',
        m'.Published capacity published'
        ∧ PointSteps Applies m.observed published (guardedEvents action) m'.observed
            published' := by
  cases step with
  | machine step =>
      obtain ⟨published', shown', point⟩ := shown.step step
      exact ⟨published', shown', point.steps⟩
  | @write θ guard change entry t' idle retained resolves changed =>
      obtain ⟨shape, levels, owed, current, publishes⟩ := shown
      obtain ⟨published', shown', applies⟩ := publishes.write retained resolves changed
      refine ⟨published', shown', .instant ?_ applies⟩
      rw [Machine.observed, idle]
      rfl

/-- All histories are linearizable when users also write through the guards that `get_mut` has
returned: each change through a guard takes effect at once, as a mutable access of its own,
between the operations of all threads.
-/
theorem guarded_calls_linearizable
    {trace : List (Transition (Machine ι K V) (GuardedAction ι K V))}
    (initial : (Machine.guarded ι K V capacity).init m)
    (run : (Machine.guarded ι K V capacity).Run m trace m')
    : Linearizable Applies SortedMap.empty (eventsOf guardedEvents trace) := by
  refine linearizable_of_pointSteps (Machine.Published capacity) Machine.observed run ?_
    (Machine.Initial.published initial) ?_
  · intro θ
    rw [Machine.observed, initial.system.idle θ]
    rfl
  · intro earlier s action s' published _ step shown
    exact shown.guardedStep step

/-- A run of the machine, without changes through guards. -/
theorem Machine.guarded_of_run {trace : List (Transition (Machine ι K V) (Action ι K V))}
    (run : (Machine.transitions ι K V capacity).Run m trace m')
    : (Machine.guarded ι K V capacity).Run m
        (trace.map (fun step => ⟨step.source, .machine step.label, step.target⟩)) m' := by
  induction run with
  | nil => exact .nil
  | snoc _ step ih => simpa using ih.snoc (.machine step)

/-- The value that `get_mut` has found is changed after `get_mut` has returned. -/
theorem guarded_calls_linearizable_written
    : ∃ trace m guard entry,
        (Machine.guarded (Fin 2) Nat Nat .smallest).Run Machine.fresh trace m
        ∧ .write 0 guard (· + 1) entry ∈ trace.map Transition.label
        ∧ Linearizable Applies SortedMap.empty (eventsOf guardedEvents trace) := by
  have plays : ((Machine.fresh : Machine (Fin 2) Nat Nat).replay .smallest [0, 1]
      (Turn.whole 0 (.insert 1 7) 13
        ++ .invoke 0 (.getMut (.ofKey 1) id) :: List.replicate 10 (.advance 0)
        ++ [.retain 0, .advance 0])).map (fun played =>
          (
            played.2.system.isQuiet [0, 1],
            played.2.guards,
            ((EntryRef.mk 0 0).entry played.2.system.tree).toOption.isSome
          ))
      = some (true, [(.page 0, .exclusive)], true) := by
    decide +kernel
  obtain ⟨⟨trace, m⟩, replayed, state⟩ := Option.map_eq_some_iff.mp plays
  simp only [Prod.mk.injEq] at state
  obtain ⟨quiet, guards, resolves⟩ := state
  cases found : (EntryRef.mk 0 0).entry m.system.tree with
  | error panic => simp [found, Except.toOption] at resolves
  | ok entry =>
      let guard : EntryMut := ⟨⟨0, 0⟩⟩
      have run := Machine.guarded_of_run (Machine.run_of_replay (by decide) replayed)
      obtain ⟨_, _, -, -, changed⟩ := EntryMut.valueMut_eq_ok guard found (· + 1)
      have retained : (Latch.page guard.page, Mode.exclusive) ∈ m.guards := by
        rw [guards]
        exact List.mem_cons_self
      have written := run.snoc
        (.write (System.idle_of_isQuiet (by decide) quiet 0) retained found changed)
      exact ⟨_, _, guard, entry, written, by simp,
        guarded_calls_linearizable Machine.fresh_initial written⟩

end BLink
