import BLink.Latching.Linearization
import BLink.Library.Keys
import BLink.Model.Set

/-! Concurrent calls of a set.
A call of a set is a call of its map, and does to the set of the map's keys what the map's call does
to the map. So the set's histories are linearizable because the map's histories are.
-/

namespace BLink

open Library

variable {ι T : Type} [TotalOrd T]

-----------------------------------------------------------------------------------------
-- What the calls do to a set
-----------------------------------------------------------------------------------------

/-- The response is a guard for the value that satisfies the condition, or there is no such value.
-/
def Response.IsValue (response : Response T Unit) (accepts : T → Prop) : Prop :=
  ∃ found,
    response = .entry found
    ∧ ∀ value, found.map (fun entry => entry.key.key) = some value ↔ accepts value

/-- The response is whether the condition holds. -/
def Response.IsFlag (response : Response T Unit) (condition : Prop) : Prop :=
  ∃ flag, response = .flag flag ∧ (flag = true ↔ condition)

/-- A call of a set of values with its response: the set before and after it. -/
def SetCall.Applies : SetCall T → Set T → Response T Unit → Set T → Prop
  | .contains value, set, response, set' =>
      set' = set ∧ response.IsFlag (∃ stored ∈ set, value.cmp stored = .eq)
  | .get value, set, response, set' =>
      set' = set ∧ response.IsValue (fun stored => stored ∈ set ∧ value.cmp stored = .eq)
  | .insert value, set, response, set' =>
      (set' = set ∧ (∃ stored ∈ set, compare value stored = .eq) ∧ response = .flag false)
      ∨ (set' = Insert.insert value set
        ∧ (∀ stored ∈ set, compare value stored ≠ .eq)
        ∧ response = .flag true)
  | .remove value, set, response, set' =>
      set' = {stored ∈ set | value.cmp stored ≠ .eq}
      ∧ response.IsFlag (∃ stored ∈ set, value.cmp stored = .eq)
  | .first, set, response, set' =>
      set' = set
      ∧ response.IsValue
          (fun stored => stored ∈ set ∧ ∀ other ∈ set, (compare stored other).isLE)
  | .last, set, response, set' =>
      set' = set
      ∧ response.IsValue
          (fun stored => stored ∈ set ∧ ∀ other ∈ set, (compare other stored).isLE)
  | .len, set, response, set' => set' = set ∧ response = .count set.ncard
  | .isEmpty, set, response, set' => set' = set ∧ response.IsFlag (set = ∅)

variable {map map' : SortedMap T Unit} {response : Response T Unit} {record : Option (T × Unit)}
  {accepts : T → Prop}

omit [TotalOrd T] in
theorem Response.IsRecord.isValue (isRecord : response.IsRecord record)
    (keys : ∀ value, record.map Prod.fst = some value ↔ accepts value)
    : response.IsValue accepts := by
  obtain ⟨found, rfl, rfl⟩ := isRecord
  refine ⟨found, rfl, fun value => ?_⟩
  rw [← keys, Option.map_map]
  rfl

theorem Response.isFlag_find? {value : Query T}
    : (Response.flag (map.find? value).isSome : Response T Unit).IsFlag
        (∃ stored ∈ map.keys, value.cmp stored = .eq) :=
  ⟨_, rfl, SortedMap.find?_isSome_iff⟩

/-- The map's call does to the set of the map's keys what the set's call does. -/
theorem SetCall.applies_keys {call : SetCall T}
    (applies : BLink.Applies call.call map response map')
    : call.Applies map.keys (call.answer response) map'.keys := by
  cases call with
  | contains value =>
      obtain ⟨rfl, rfl⟩ := applies
      exact ⟨rfl, Response.isFlag_find?⟩
  | get value =>
      obtain ⟨rfl, found⟩ := applies
      exact ⟨rfl, found.isValue (fun _ => SortedMap.find?_map_fst)⟩
  | insert value =>
      obtain ⟨rfl, rfl⟩ := applies
      cases found : map.find? (.ofKey value) with
      | none =>
          refine .inr ⟨SortedMap.keys_insert_of_missing found, ?_, rfl⟩
          rintro stored ⟨record, member, rfl⟩
          exact SortedMap.find?_eq_none.mp found record member
      | some record =>
          obtain ⟨member, equal⟩ := SortedMap.find?_eq_some.mp found
          have stored : record.1 ∈ map.keys := SortedMap.mem_keys_of_mem member
          exact .inl ⟨SortedMap.keys_insert_of_found found, ⟨_, stored, equal⟩, rfl⟩
  | remove value =>
      obtain ⟨rfl, rfl⟩ := applies
      refine ⟨SortedMap.keys_erase map value, ?_⟩
      rw [show (SetCall.remove value).answer (.previous ((map.find? value).map Prod.snd))
        = .flag (map.find? value).isSome from congrArg Response.flag Option.isSome_map]
      exact Response.isFlag_find?
  | first =>
      obtain ⟨rfl, found⟩ := applies
      exact ⟨rfl, found.isValue (fun _ => SortedMap.first?_map_fst)⟩
  | last =>
      obtain ⟨rfl, found⟩ := applies
      exact ⟨rfl, found.isValue (fun _ => SortedMap.last?_map_fst)⟩
  | len =>
      obtain ⟨rfl, rfl⟩ := applies
      exact ⟨rfl, congrArg Response.count (SortedMap.ncard_keys _).symm⟩
  | isEmpty =>
      obtain ⟨rfl, rfl⟩ := applies
      exact ⟨rfl, _, rfl, by rw [decide_eq_true_iff, SortedMap.keys_eq_empty]⟩

/-- The map's calls that no set makes keep the keys. -/
theorem Applies.keys_of_asSet_none {call : Call T Unit} (isOther : call.asSet = none)
    (applies : Applies call map response map')
    : map'.keys = map.keys := by
  cases call with
  | getMut value write => rw [applies.1, SortedMap.keys_modify]
  | next => exact applies.elim
  | _ => cases isOther

-----------------------------------------------------------------------------------------
-- Histories
-----------------------------------------------------------------------------------------

variable [DecidableEq ι] {N : PageCapacity} {m m' : Machine ι T Unit}

/-- The events of a set's calls, all of them except `last`, which does not look at its map once. -/
def setEvent : Action ι T Unit → Option (Event ι (SetCall T) (Response T Unit))
  | .invoke θ call => if call.isAtomic then call.asSet.map (.invoke θ) else none
  | .respond θ call response =>
      if call.isAtomic then call.asSet.map (fun outer => .respond θ (outer.answer response))
      else none
  | _ => none

/-- What an event of the set is for its map. -/
theorem setEvent_eq {action : Action ι T Unit}
    (step : (Machine.transitions ι T Unit N).step m action m')
    : setEvent action
      = (atomicEvent action).bind (Event.translate Call.asSet SetCall.answer m.observed) := by
  cases step with
  | @invoke θ call idle =>
      rw [setEvent, atomicEvent]
      split_ifs <;> rfl
  | @respond θ call response done free =>
      rw [setEvent, atomicEvent]
      split_ifs with atomic
      · have decided : m.observed θ = .decided call response := by
          rw [Machine.observed, done, free]
          exact if_pos atomic
        simp only [Option.bind_some, Event.translate, decided]
      · rfl
  | _ => rfl

/-- All histories of a set's operations are linearizable, one latch at a time: `contains`, `get`,
`insert`, `remove`, `first`, `len` and `is_empty` can be put in one order that respects their
real-time order, and in which a mathematical set of values gives every completed operation the
result it had. Guards may be kept and dropped at any time, and other threads may run iterators and
`last` meanwhile.
-/
theorem set_calls_linearizable {trace : List (Transition (Machine ι T Unit) (Action ι T Unit))}
    (initial : (Machine.transitions ι T Unit N).init m)
    (run : (Machine.transitions ι T Unit N).Run m trace m')
    : Linearizable SetCall.Applies ∅ (historyOf setEvent trace) := by
  refine linearizable_of_points
    (fun m set => ∃ published, Machine.Published N m published ∧ published.keys = set)
    (fun m θ => (m.observed θ).translate Call.asSet SetCall.answer) run ?_ ?_ ?_
  · intro θ
    rw [Machine.observed, initial.system.idle θ]
    rfl
  · exact ⟨_, initial.published, SortedMap.keys_eq_empty.mpr rfl⟩
  · rintro earlier s action s' _ _ step ⟨published, shown, rfl⟩
    obtain ⟨published', shown', points⟩ := shown.step step
    refine ⟨_, ⟨published', shown', rfl⟩, ?_⟩
    rw [setEvent_eq step]
    refine points.translate ?_ ?_
    · intro call outer map response map' isSet applies
      rw [Call.asSet_eq_some] at isSet
      subst isSet
      exact SetCall.applies_keys applies
    · exact fun call map response map' isOther applies => applies.keys_of_asSet_none isOther

/-- Two threads insert the same value, and the second one finds the first one's leaf latched. -/
theorem set_calls_linearizable_duplicate
    : ∃ trace m,
        (Machine.fresh : Machine (Fin 2) Nat Unit).replay .smallest [0, 1]
            (.invoke 0 (.insert 1 ()) :: List.replicate 4 (.advance 0)
              ++ [.invoke 1 (.insert 1 ()), .advance 1] ++ List.replicate 9 (.advance 0)
              ++ List.replicate 11 (.advance 1))
          = some (trace, m)
        ∧ Linearizable SetCall.Applies ∅ (historyOf setEvent trace) := by
  have plays : ((Machine.fresh : Machine (Fin 2) Nat Unit).replay .smallest [0, 1]
      (.invoke 0 (.insert 1 ()) :: List.replicate 4 (.advance 0)
        ++ [.invoke 1 (.insert 1 ()), .advance 1] ++ List.replicate 9 (.advance 0)
        ++ List.replicate 11 (.advance 1))).isSome = true := by
    decide +kernel
  obtain ⟨⟨trace, m⟩, replayed⟩ := Option.isSome_iff_exists.mp plays
  exact ⟨trace, m, replayed,
    set_calls_linearizable Machine.fresh_initial (Machine.run_of_replay (by decide) replayed)⟩

end BLink
