import BLink.Slots.Execution
import BLink.Slots.Ledger

/-! Arrays over raw slots refine bounded lists, and what follows for the slots.
-/

namespace BLink

open Library

variable {α : Type} {elementSize array : Nat} {s s' start : Arrays α} {a : BoundedLists α}
  {trace : List (Transition (Arrays α) (Operation α × Except Failure (Answer α)))}

/-- The values in the slots of the array. -/
def Arrays.items (s : Arrays α) (array : Nat) : List α :=
  (List.range (s.len array)).filterMap (fun offset => s.memory.value? array offset)

/-- The values in the slots of all arrays. -/
def Arrays.owned (s : Arrays α) : Multiset α :=
  ∑ array ∈ Finset.range s.memory.count, (s.items array : Multiset α)

theorem Related.items_eq (related : Related elementSize s a) (present : array < s.memory.count)
    : s.items array = a.items array := by
  have holds := related.holds array (related.count ▸ present)
  rw [Arrays.items, holds.len]
  refine Eq.trans (List.filterMap_congr (fun offset _ => holds.contains offset)) ?_
  exact Memory.filterMap_getElem?_range _

theorem Related.owned_eq (related : Related elementSize s a) : s.owned = a.owned := by
  rw [Arrays.owned, BoundedLists.owned, ← related.count]
  refine Finset.sum_congr rfl (fun array inside => ?_)
  rw [related.items_eq (related.count ▸ Finset.mem_range.mp inside)]

/-- No operation on lists is a fault. -/
theorem BoundedLists.perform_ne_fault (a : BoundedLists α) (operation : Operation α)
    (fault : Fault)
    : (a.perform elementSize operation).1 ≠ .error (.fault fault) := by
  cases operation
  all_goals
    simp only [perform, commit, absorb]
    repeat' split
    all_goals simp

/-- Bounded lists simulate the arrays. -/
theorem related_simulation
    : Simulation (rawArrays α elementSize) (boundedLists α elementSize) some
        (Related elementSize) :=
  {
    init := by
      intro s initial
      obtain ⟨none, nothing⟩ := initial
      refine ⟨{ count := 0, cap := s.cap, items := fun _ => [], dropped := [] }, ⟨rfl, rfl⟩, ?_⟩
      exact {
        count := none.symm
        dropped := nothing.symm
        holds := fun array present => absurd present (Nat.not_lt_zero array)
        positive := fun array present => absurd present (Nat.not_lt_zero array)
        layout := fun array present => absurd present (Nat.not_lt_zero array)
      }
    visible := by
      intro s a label s' seen related step same
      cases same
      obtain ⟨valid, runs⟩ := step
      rw [← related.count] at valid
      have agrees := related.agrees label.1 valid
      rw [runs] at agrees
      exact ⟨_, ⟨valid, Prod.ext agrees.result.symm rfl⟩, agrees.related⟩
    invisible := fun _ _ _ _ _ _ unseen => nomatch unseen
  }

/-- In no run a method touches a slot that it must not touch, and a method whose check panics has
changed nothing.
-/
theorem run_safe (initial : (rawArrays α elementSize).init start)
    (run : (rawArrays α elementSize).Run start trace s) {transition}
    (member : transition ∈ trace)
    : (∀ fault, transition.label.2 ≠ .error (.fault fault))
      ∧ ∀ panic,
          transition.label.2 = .error (.panic panic) → transition.target = transition.source := by
  obtain ⟨⟨valid, runs⟩, earlier, before⟩ := run.step_of_mem member
  obtain ⟨a, -, related⟩ := related_simulation.reachable ⟨start, earlier, initial, before⟩
  have agrees := related.agrees transition.label.1 (related.count ▸ valid)
  rw [runs] at agrees
  exact ⟨
    fun fault failed => a.perform_ne_fault _ fault (agrees.result.symm.trans failed),
    agrees.unchanged
  ⟩

/-- Every run of the arrays is one of the lists. -/
theorem Related.run (related : Related elementSize s a)
    (run : (rawArrays α elementSize).Run s trace s')
    : ∃ path a',
        (boundedLists α elementSize).Run a path a'
        ∧ path.map Transition.label = trace.map Transition.label
        ∧ Related elementSize s' a' := by
  obtain ⟨path, a', matched, labels, related'⟩ := related_simulation.run related run
  exact ⟨path, a', matched, labels.trans observed_some, related'⟩

/-- Calls of `clear` start each destructor of the array once. -/
theorem Related.clears (related : Related elementSize s a) (present : array < s.memory.count)
    (run : (rawArrays α elementSize).Run s trace s')
    (clears : ∀ transition ∈ trace, ∃ panics, transition.label.1 = .clear array panics)
    : s'.memory.dropped ++ (s'.items array).reverse
        = s.memory.dropped ++ (s.items array).reverse
      ∧ s'.len array ≤ s.len array - trace.length
      ∧ ((∃ transition ∈ trace, transition.label.2 = .ok .unit) → s'.len array = 0) := by
  obtain ⟨path, a', matched, labels, related'⟩ := related.run run
  have sameLength : path.length = trace.length := by
    simpa using congrArg List.length labels
  obtain ⟨count, order, fewer, emptied⟩ := BoundedLists.run_clears matched
    (by rw [labels]; exact List.forall_mem_map.mpr clears)
  have there : array < a'.count := by rwa [count, related.count]
  have still : array < s'.memory.count := related'.count ▸ there
  have len := (related'.holds array there).len
  refine ⟨?_, ?_, ?_⟩
  · rw [← related'.dropped, related'.items_eq still, order, related.dropped,
      related.items_eq present]
  · rw [len, (related.holds array (related.count ▸ present)).len, ← sameLength]
    exact fewer
  · intro someReturned
    obtain ⟨transition, member, returns⟩ := someReturned
    rw [len, emptied ?_, List.length_nil]
    rw [labels]
    exact ⟨_, List.mem_map_of_mem member, returns⟩

/-- Arrays are bounded lists over raw slots: in every run from the beginning the operations
return what they return on lists; exactly the slots below `len` hold values, and `len` is at most
`cap`; no slot is touched that must not be touched, and a check that panics has changed nothing;
every value put in is in one array, or has been handed back or dropped once; and `clear` starts
each destructor once, however often destructors panic and it is called again.
-/
theorem arrays_refine_bounded_lists (initial : (rawArrays α elementSize).init start)
    (run : (rawArrays α elementSize).Run start trace s)
    : (∃ origin path a,
        (boundedLists α elementSize).init origin
        ∧ (boundedLists α elementSize).Run origin path a
        ∧ path.map Transition.label = trace.map Transition.label
        ∧ a.count = s.memory.count
        ∧ ∀ array,
            array < s.memory.count
            → s.memory.slice ⟨array, 0⟩ (s.len array) = .ok (a.items array)
              ∧ s.cap array = a.cap array)
      ∧ (∀ array,
          array < s.memory.count
          → s.len array ≤ s.cap array
            ∧ s.memory.size array = s.cap array
            ∧ ∀ offset, (s.memory.value? array offset).isSome ↔ offset < s.len array)
      ∧ (∀ transition ∈ trace,
          (∀ fault, transition.label.2 ≠ .error (.fault fault))
          ∧ ∀ panic,
              transition.label.2 = .error (.panic panic) → transition.target = transition.source)
      ∧ allPut (trace.map Transition.label)
        = s.owned + (s.memory.dropped : Multiset α) + allReturned (trace.map Transition.label)
      ∧ ∀ array more s',
          array < s.memory.count
          → (rawArrays α elementSize).Run s more s'
          → (∀ transition ∈ more, ∃ panics, transition.label.1 = .clear array panics)
          → s'.memory.dropped ++ (s'.items array).reverse
              = s.memory.dropped ++ (s.items array).reverse
            ∧ s'.len array ≤ s.len array - more.length
            ∧ ((∃ transition ∈ more, transition.label.2 = .ok .unit) → s'.len array = 0) := by
  obtain ⟨origin, initial', begins⟩ := related_simulation.init start initial
  obtain ⟨path, a, matched, labels, related⟩ := begins.run run
  have holds : ∀ array, array < s.memory.count → s.Holds array (a.items array) (a.cap array) :=
    fun array present => related.holds array (related.count ▸ present)
  refine ⟨⟨origin, path, a, initial', matched, labels, related.count, ?_⟩, ?_,
    fun _ => run_safe initial run, ?_, fun array more s' => related.clears⟩
  · intro array present
    refine ⟨?_, (holds array present).cap⟩
    rw [(holds array present).len]
    exact Memory.slice_ok (holds array present).contains
      ((holds array present).size ▸ (holds array present).fits)
  · intro array present
    have here := holds array present
    rw [here.len, here.cap]
    exact ⟨here.fits, here.size, fun offset => here.contains.isSome_iff⟩
  · have balanced := BoundedLists.run_balanced matched
    have nothing : origin.owned = 0 := by
      rw [BoundedLists.owned, initial'.1, Finset.range_zero, Finset.sum_empty]
    rw [BoundedLists.Balanced, nothing, initial'.2, labels, ← related.owned_eq, related.dropped]
      at balanced
    rw [balanced]
    exact (zero_add _).symm

-----------------------------------------------------------------------------------------
-- A run
-----------------------------------------------------------------------------------------

instance (count : Nat) : (operation : Operation α) → Decidable (operation.Valid count)
  | .withCapacity _ => inferInstanceAs (Decidable True)
  | .asSlice self | .push self _ | .pop self | .insert self _ _ | .remove self _
  | .splitOff self _ | .clear self _ => inferInstanceAs (Decidable (self < count))
  | .appendFrom self other | .prependFrom self other =>
      inferInstanceAs (Decidable (self < count ∧ other < count ∧ self ≠ other))

/-- Before the first array is made. -/
def Arrays.none : Arrays α :=
  { memory := { count := 0, size := fun _ => 0, slot := fun _ _ => .uninit, dropped := [] }
    len := fun _ => 0
    cap := fun _ => 0 }

/-- Performs an operation whose arrays exist. -/
def Arrays.play (elementSize : Nat)
    : Arrays α → Operation α
      → Option ((Operation α × Except Failure (Answer α)) × Arrays α) :=
  TransitionSystem.perform (fun s operation => operation.Valid s.memory.count)
    (fun s operation => operation.run elementSize s)

theorem Arrays.step_of_play {operation : Operation α} {label}
    (played : s.play elementSize operation = some (label, s'))
    : label.1 = operation ∧ (rawArrays α elementSize).step s label s' := by
  have performed := TransitionSystem.of_perform played
  exact performed

/-- Two insertions and a removal shift the values behind them, and another insertion finds the
array full; a tail is split off and appended again. Then the array is cleared by two calls: in the
first one the destructor of the third value panics.
-/
theorem arrays_refine_bounded_lists_cleared
    : ∃ trace s more s',
        (rawArrays Nat 8).Run .none trace s
        ∧ (rawArrays Nat 8).Run s more s'
        ∧ (s.items 0, s.items 1) = ([6, 7, 9, 8], [])
        ∧ allPut (trace.map Transition.label)
          = s.owned + (s.memory.dropped : Multiset Nat)
            + allReturned (trace.map Transition.label)
        ∧ s'.memory.dropped = [8, 9, 7, 6]
        ∧ s'.memory.dropped ++ (s'.items 0).reverse = s.memory.dropped ++ (s.items 0).reverse := by
  have initial : (rawArrays Nat 8).init .none := ⟨rfl, rfl⟩
  have plays
      : (TransitionSystem.replay (Arrays.play 8) .none
          [.withCapacity 4, .push 0 7, .push 0 9, .insert 0 0 5, .insert 0 1 6, .insert 0 2 8,
            .remove 0 0, .splitOff 0 1, .push 1 8, .appendFrom 0 1]).bind
          (fun (_, s) =>
            (TransitionSystem.replay (Arrays.play 8) s
              [.clear 0 (fun offset => offset == 2), .clear 0 (fun _ => false)]).map
              (fun (_, s') => (s.memory.count, (s.items 0, s.items 1), s'.memory.dropped)))
        = some (2, ([6, 7, 9, 8], []), [8, 9, 7, 6]) := by
    decide +kernel
  simp only [Option.bind_eq_some_iff, Option.map_eq_some_iff, Prod.exists, Prod.mk.injEq] at plays
  obtain ⟨trace, s, used, more, s', cleared, count, items, dropped⟩ := plays
  have run : (rawArrays Nat 8).Run .none trace s :=
    .of_replay (fun _ _ _ _ played => (Arrays.step_of_play played).2) used
  have later : (rawArrays Nat 8).Run s more s' :=
    .of_replay (fun _ _ _ _ played => (Arrays.step_of_play played).2) cleared
  have clears : ∀ transition ∈ more, ∃ panics, transition.label.1 = .clear 0 panics := by
    intro transition member
    obtain ⟨operation, isClear, played⟩ :=
      TransitionSystem.exists_move_of_replay cleared member
    rw [(Arrays.step_of_play played).1]
    simp only [List.mem_cons, List.not_mem_nil, or_false] at isClear
    rcases isClear with rfl | rfl <;> exact ⟨_, rfl⟩
  obtain ⟨-, -, -, balanced, kept⟩ := arrays_refine_bounded_lists initial run
  have present : 0 < s.memory.count := count ▸ Nat.two_pos
  exact ⟨trace, s, more, s', run, later, Prod.ext items.1 items.2, balanced, dropped,
    (kept 0 more s' present later clears).1⟩

end BLink
