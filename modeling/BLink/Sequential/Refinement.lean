import BLink.Sequential.Commands

/-! A map that is not shared refines a finite sorted map. -/

namespace BLink

open Library

variable {K V : Type} [TotalOrd K]

/-- What a call does to a sorted map, with its response. A call of `next` leaves the map as it
is; what it returns depends on its cursor, too.
-/
def Call.Applies (map : SortedMap K V) (response : Response K V) (map' : SortedMap K V)
    : Call K V → Prop
  | .next _ => map' = map
  | plain => BLink.Applies plain map response map'

/-- What a command does to a sorted map, with its response. -/
def Command.Applies (map : SortedMap K V) (response : Response K V) (map' : SortedMap K V)
    : Command K V → Prop
  | .call plain => plain.Applies map response map'
  | .clear => map' = .empty ∧ response = .unit
  | .extend pairs => map' = map.insertAll pairs ∧ response = .unit
  | .fromIter pairs => map' = SortedMap.empty.insertAll pairs ∧ response = .unit

/-- The histories of a finite sorted map. -/
def sortedMaps (K V : Type) [TotalOrd K]
    : TransitionSystem (SortedMap K V) (Command K V × Response K V) where
  init map := map = .empty
  step map label map' := label.1.Applies map label.2 map'

variable {N : PageCapacity} {s s' : System Unit K V} {map map' : SortedMap K V}
  {cursors cursors' : Nat → Cursor K} {call : Call K V} {response : Response K V}

theorem Answers.applies (answers : Answers call cursors map response map' cursors')
    : (Command.call call).Applies map response map' := by
  cases call with
  | next => exact answers.1
  | _ => exact answers.1

/-- A command has the response and the effect that it has on the sorted map. -/
theorem Resting.executes {command : Command K V} (resting : Resting N s map cursors)
    (executes : Executes N s (command, response) s')
    : ∃ map' cursors', Resting N s' map' cursors' ∧ command.Applies map response map' := by
  cases executes with
  | call performs =>
      obtain ⟨map', cursors', resting', answers⟩ := resting.performs performs
      exact ⟨map', cursors', resting', answers.applies⟩
  | clear _ renewed => exact ⟨_, _, .initial renewed.initial, rfl, rfl⟩
  | extend _ inserted => exact ⟨_, _, resting.insertsAll inserted, rfl, rfl⟩
  | fromIter _ renewed inserted =>
      exact ⟨_, _, (Resting.initial renewed.initial).insertsAll inserted, rfl, rfl⟩

/-- A map between two commands is simulated by the sorted map that its tree stands for. -/
theorem sortedMaps_simulate (N : PageCapacity)
    : Simulation (histories K V N) (sortedMaps K V) some
        (fun s map => ∃ cursors, Resting N s map cursors) where
  init := fun s initial => ⟨_, rfl, _, .initial initial⟩
  visible := by
    intro s map label s' seen resting step isSeen
    cases isSeen
    obtain ⟨cursors, resting⟩ := resting
    obtain ⟨map', cursors', resting', applies⟩ := resting.executes step
    exact ⟨map', applies, cursors', resting'⟩
  invisible := by
    intro s map label s' resting step isSeen
    cases isSeen

end BLink
