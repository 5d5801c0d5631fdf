import BLink.Library.Collecting
import BLink.Sequential.Sets

/-! Maps that are collected and iterated again.
A loop over a map visits its records in order. A map that `from_iter` has built from pairs has one
record for all pairs with equal keys, and a map that is built from another one's records has the
same records.
-/

namespace BLink

open Library

variable {K V : Type} [TotalOrd K]

/-- The rest of a loop that takes its entries from a cursor, and drops each one before it takes the
next one: `for entry in &map`, and the loops of `fmt`. It visits the given records.
-/
inductive Visits (N : PageCapacity) (c : Nat)
    : System Unit K V → List (K × V) → System Unit K V → Prop
  | ends {s s'} (next : Performs N s (.next c) (.entry none) s') : Visits N c s [] s'
  | onward {s middle s' entry records}
    (next : Performs N s (.next c) (.entry (some entry)) middle)
    (rest : Visits N c middle records s')
    : Visits N c s (entry.record :: records) s'

-----------------------------------------------------------------------------------------
-- Loops
-----------------------------------------------------------------------------------------

/-- A cursor that has come to the first records inside the bounds of its walk. -/
structure Underway (N : PageCapacity) (c : Nat) (origin : Walk K) (s : System Unit K V)
    (map : SortedMap K V) (front back : List (K × V))
    : Prop where
  inside : origin.inside map = front ++ back
  resting
    : ∃ cursors,
        Resting N s map cursors
        ∧ (cursors c).toWalk
          = { origin with last := front.getLast?.map Prod.fst, ended := false }

variable {N : PageCapacity} {s s' : System Unit K V} {map : SortedMap K V}
  {cursors : Nat → Cursor K} {c : Nat} {records : List (K × V)} {response : Response K V}
  {origin : Walk K} {front back : List (K × V)}

/-- A new cursor has come to no record. -/
theorem Resting.underway (resting : Resting N s map cursors) (fresh : (cursors c).toWalk.Fresh)
    : Underway N c (cursors c).toWalk s map [] ((cursors c).toWalk.inside map) := by
  refine ⟨rfl, cursors, resting, ?_⟩
  obtain ⟨last, ended⟩ := fresh
  cases walk : (cursors c).toWalk
  rw [walk] at last ended
  subst last ended
  rfl

/-- One turn of the loop: the cursor comes to the next record, or ends. -/
theorem Underway.turn (underway : Underway N c origin s map front back)
    (performs : Performs N s (.next c) response s')
    : (∃ entry rest,
        back = entry.record :: rest
        ∧ response = .entry (some entry)
        ∧ Underway N c origin s' map (front ++ [entry.record]) rest)
      ∨ back = []
        ∧ response = .entry none
        ∧ ∃ cursors', Resting N s' map cursors' := by
  obtain ⟨inside, cursors, resting, walk⟩ := underway
  obtain ⟨map', cursors', resting', rfl, result, cursor', nexts, rfl, rfl⟩ :=
    resting.performs performs
  cases Walk.nexts_cases inside walk nexts.walks with
  | inl comes =>
      obtain ⟨head, rest, rfl, isHead, walk'⟩ := comes
      obtain ⟨entry, rfl, rfl⟩ := Option.map_eq_some_iff.mp isHead
      refine .inl ⟨entry, rest, rfl, rfl, ?_, _, resting', ?_⟩
      · rw [inside, List.append_assoc]
        rfl
      · rw [Function.update_self, walk']
        simp only [List.getLast?_append, List.getLast?_singleton, Option.some_or, Option.map_some]
  | inr ends =>
      obtain ⟨rfl, isNone, -⟩ := ends
      obtain rfl := Option.map_eq_none_iff.mp isNone
      exact .inr ⟨rfl, rfl, _, resting'⟩

/-- The loop visits the records that its cursor has not come to: by induction on its turns. -/
theorem Underway.visits (underway : Underway N c origin s map front back)
    (visits : Visits N c s records s')
    : records = back ∧ ∃ cursors', Resting N s' map cursors' := by
  induction visits generalizing front back with
  | ends next =>
      rcases underway.turn next with ⟨_, _, -, isNone, -⟩ | ⟨rfl, -, resting⟩
      · cases isNone
      · exact ⟨rfl, resting⟩
  | onward next _ ih =>
      rcases underway.turn next with ⟨entry, rest, rfl, isEntry, later⟩ | ⟨-, isNone, -⟩
      · cases isEntry
        obtain ⟨rfl, resting⟩ := ih later
        exact ⟨rfl, resting⟩
      · cases isNone

/-- The loop comes to its end: by induction on the records that its cursor has not come to. -/
theorem Underway.exists_visits (underway : Underway N c origin s map front back)
    : ∃ s', Visits N c s back s' := by
  obtain ⟨cursors, resting, -⟩ := underway.resting
  obtain ⟨response, middle, performs⟩ := resting.exists_performs (.next c)
  induction back generalizing s front cursors response middle with
  | nil =>
      rcases underway.turn performs with ⟨_, _, none, -⟩ | ⟨-, rfl, -⟩
      · cases none
      · exact ⟨middle, .ends performs⟩
  | cons record back ih =>
      rcases underway.turn performs with ⟨entry, rest, isBack, rfl, later⟩ | ⟨none, -⟩
      · cases isBack
        obtain ⟨cursors', resting', -⟩ := later.resting
        obtain ⟨response', middle', performs'⟩ := resting'.exists_performs (.next c)
        obtain ⟨s', rest⟩ := ih later cursors' resting' response' middle' performs'
        exact ⟨s', .onward performs rest⟩
      · cases none

theorem Walk.inside_newIter : (Cursor.newIter : Cursor K).toWalk.inside map = map.records :=
  List.filter_eq_self.mpr (fun _ _ => decide_eq_true ⟨trivial, trivial⟩)

/-- A loop over a map with its new iterator. -/
theorem Resting.underway_iter (resting : Resting N s map cursors) (c : Nat)
    : Underway N c Cursor.newIter.toWalk (s.iter c) map [] map.records := by
  have moved : Function.update cursors c Cursor.newIter c = .newIter := Function.update_self ..
  have fresh : (Function.update cursors c Cursor.newIter c).toWalk.Fresh := by
    rw [moved]
    exact Cursor.Created.iter.fresh
  have underway := (resting.iter c).underway fresh
  rwa [moved, Walk.inside_newIter] at underway

-----------------------------------------------------------------------------------------
-- Round trips
-----------------------------------------------------------------------------------------

/-- A loop over a map that `from_iter` has built ends. It visits its records in strictly increasing
order of their keys: for all pairs with equal keys the one with the first pair's key and the last
pair's value. A map that is built from the records that the loop has visited is again visited in
just these records.
-/
theorem from_iter_round_trip {pairs : List (K × V)} {c : Nat} {built : System Unit K V}
    (executes : Executes N s (.fromIter pairs, response) built)
    : (∃ records s', Visits N c (built.iter c) records s')
      ∧ ∀ records visited,
          Visits N c (built.iter c) records visited
          → SortedBy Prod.fst records
            ∧ (∀ record,
                record ∈ records
                ↔ ∃ value key,
                    pairs.find? (fun pair => compare record.1 pair.1 = .eq)
                      = some (record.1, value)
                    ∧ pairs.reverse.find? (fun pair => compare record.1 pair.1 = .eq)
                      = some (key, record.2))
            ∧ ∀ response copy records' visited',
                Executes N visited (.fromIter records, response) copy
                → Visits N c (copy.iter c) records' visited'
                → records' = records := by
  have collect {s built : System Unit K V} {pairs : List (K × V)} {response : Response K V}
      (executes : Executes N s (.fromIter pairs, response) built)
      : ∃ cursors, Resting N built (SortedMap.empty.insertAll pairs) cursors := by
    cases executes with
    | fromIter _ renewed inserted =>
        exact ⟨_, (Resting.initial renewed.initial).insertsAll inserted⟩
  obtain ⟨cursors, resting⟩ := collect executes
  have underway := resting.underway_iter c
  refine ⟨⟨_, underway.exists_visits⟩, ?_⟩
  intro records visited visits
  obtain ⟨rfl, -⟩ := underway.visits visits
  refine ⟨(SortedMap.empty.insertAll pairs).sorted, ?_, ?_⟩
  · intro record
    rw [SortedMap.mem_insertAll_empty, SortedMap.collected_eq_some]
    rfl
  · intro response copy records' visited' again visits'
    obtain ⟨cursors', resting'⟩ := collect again
    obtain ⟨same, -⟩ := (resting'.underway_iter c).visits visits'
    rw [same, SortedMap.insertAll_records]

/-- Pairs out of order, two of them with equal keys. -/
theorem from_iter_round_trip_unsorted
    : ∃ (built visited : System Unit Nat Nat) (records : List (Nat × Nat)),
        Executes .smallest .fresh (.fromIter [(2, 1), (1, 5), (2, 7)], .unit) built
        ∧ Visits .smallest 0 (built.iter 0) records visited
        ∧ SortedBy Prod.fst records
        ∧ (2, 7) ∈ records := by
  have renewed : Renewed .smallest (System.fresh : System Unit Nat Nat) := System.fresh_renewed _
  have resting : Resting .smallest (System.fresh : System Unit Nat Nat) .empty _ :=
    .initial renewed.initial
  obtain ⟨built, inserted⟩ := resting.exists_insertsAll [(2, 1), (1, 5), (2, 7)]
  have executes : Executes .smallest .fresh (.fromIter [(2, 1), (1, 5), (2, 7)], .unit) built :=
    .fromIter rfl renewed inserted
  obtain ⟨⟨records, visited, visits⟩, trip⟩ := from_iter_round_trip executes (c := 0)
  obtain ⟨sorted, contents, -⟩ := trip records visited visits
  exact ⟨built, visited, records, executes, visits, sorted, (contents (2, 7)).mpr ⟨1, 2, rfl, rfl⟩⟩

end BLink
