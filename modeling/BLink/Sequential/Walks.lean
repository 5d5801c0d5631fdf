import BLink.Sequential.Calls

/-! Walks along a sorted map, which is what cursors are for.
A walk goes from one record of the map to the next one that is there, and ends where the next
record lies beyond its end bound.
-/

namespace BLink

open Library

variable {K V : Type} [TotalOrd K]

/-- A walk between two bounds: the last key that it has come to, and whether it has ended. -/
structure Walk (K : Type) [TotalOrd K] where
  start : Bound (Query K)
  stop : Bound (Query K)
  last : Option K
  ended : Bool

/-- A walk that has not been begun. -/
structure Walk.Fresh (walk : Walk K) : Prop where
  last : walk.last = none
  ended : walk.ended = false

/-- The walk has still to come to the key: it lies above the last one, or above the start. -/
def Walk.Ahead (walk : Walk K) (key : K) : Prop :=
  match walk.last with
  | some last => compare last key = .lt
  | none => walk.start.AdmitsFrom key

/-- The least record of the map that is ahead of the walk. -/
structure Walk.IsNext (walk : Walk K) (map : SortedMap K V) (record : K × V) : Prop where
  stored : record ∈ map.records
  ahead : walk.Ahead record.1
  least : ∀ other ∈ map.records, walk.Ahead other.1 → (compare record.1 other.1).isLE

/-- A step of a walk: it comes to the next record if that lies within the end bound, and
otherwise it ends for good.
-/
inductive Walk.Nexts (map : SortedMap K V) (walk : Walk K) : Option (K × V) → Walk K → Prop
  | ended (ended : walk.ended = true) : Nexts map walk none walk
  | comes {record : K × V} (unended : walk.ended = false) (next : walk.IsNext map record)
    (inside : walk.stop.AdmitsTo record.1)
    : Nexts map walk (some record) { walk with last := some record.1 }
  | ends (unended : walk.ended = false)
    (beyond : ∀ record, walk.IsNext map record → ¬ walk.stop.AdmitsTo record.1)
    : Nexts map walk none { walk with ended := true }

variable {walk walk' : Walk K} {map : SortedMap K V} {record other : K × V}

/-- There is at most one next record. -/
theorem Walk.IsNext.unique (next : walk.IsNext map record) (next' : walk.IsNext map other)
    : record = other := by
  have le := next.least other next'.stored next'.ahead
  have ge := next'.least record next.stored next.ahead
  exact map.sorted.eq_of_eq next.stored next'.stored (Std.OrientedCmp.isLE_antisymm le ge)

/-- The walk that a cursor makes. -/
def Cursor.toWalk (cursor : Cursor K) : Walk K where
  start := cursor.start
  stop := cursor.stop
  last := cursor.last.map KeyHandle.key
  ended := cursor.isFinished

variable {cursor cursor' begun : Cursor K} {result found : Option (Entry K V)}

theorem Cursor.Created.fresh (created : cursor.Created) : cursor.toWalk.Fresh := by
  cases created <;> exact ⟨rfl, rfl⟩

/-- A cursor seeks what is ahead of its walk. -/
theorem Cursor.seeking_iff (key : K) : cursor.seeking.Accepts key ↔ cursor.toWalk.Ahead key := by
  cases cursor with
  | iter last finished =>
      cases last with
      | none => exact Iff.rfl
      | some last => simp [Cursor.seeking, Seek.Accepts, Cursor.toWalk, Cursor.last, Walk.Ahead]
  | range start stop last started finished =>
      cases last with
      | some last =>
          cases start <;>
            simp [Cursor.seeking, Seek.Accepts, Cursor.toWalk, Cursor.last, Walk.Ahead]
      | none =>
          cases start with
          | unbounded => exact Iff.rfl
          | included start =>
              simp only [Cursor.seeking, Seek.Accepts, Cursor.toWalk, Cursor.last, Walk.Ahead,
                Cursor.start, Bound.AdmitsFrom, Option.map_none, true_and]
              cases start.cmp key <;> simp
          | excluded start =>
              simp [Cursor.seeking, Seek.Accepts, Cursor.toWalk, Cursor.last, Walk.Ahead,
                Cursor.start, Bound.AdmitsFrom]

/-- What a lookup finds is the least record that it accepts. -/
theorem Seek.least_eq_some {seek : Seek K} (sought : seek ≠ .exhausted)
    : seek.least map = some record
      ↔ record ∈ map.records
        ∧ seek.Accepts record.1
        ∧ ∀ other ∈ map.records, seek.Accepts other.1 → (compare record.1 other.1).isLE := by
  cases seek with
  | exhausted => exact absurd rfl sought
  | firstEntry =>
      have all : map.first? = map.records.find? (fun _ => true) := by
        rw [SortedMap.first?]
        cases map.records <;> rfl
      rw [Seek.least, all, map.sorted.find?_eq_some_iff]
      simp [Seek.Accepts]
  | entryAtOrAfter key inclusive =>
      rw [Seek.least, SortedMap.least?, map.sorted.find?_eq_some_iff]
      simp [Seek.Accepts]

/-- A cursor's lookup finds the next record of its walk. -/
theorem Cursor.least_seeking
    : cursor.seeking.least map = some record ↔ cursor.toWalk.IsNext map record := by
  rw [Seek.least_eq_some cursor.seeking_ne_exhausted]
  simp only [Cursor.seeking_iff]
  constructor
  · exact fun least => ⟨least.1, least.2.1, least.2.2⟩
  · exact fun next => ⟨next.stored, next.ahead, next.least⟩

/-- A call of `next` that begins does not move the walk. -/
theorem Cursor.begin_walk {seek : Seek K} (begins : cursor.begin = .ok (begun, seek))
    : begun.toWalk = cursor.toWalk := by
  cases cursor with
  | iter last finished => cases finished <;> cases last <;> cases begins <;> rfl
  | range start stop last started finished =>
      cases finished with
      | true => cases begins; rfl
      | false =>
          cases started with
          | false => cases begins; rfl
          | true => cases last <;> cases begins; rfl

/-- A call of `next` is a step of the cursor's walk. -/
theorem Cursor.Nexts.walks (nexts : cursor.Nexts map result cursor')
    : cursor.toWalk.Nexts map (result.map Entry.record) cursor'.toWalk := by
  cases nexts with
  | exhausted finished => exact .ended finished
  | @sought begun found unfinished begins least =>
      rw [← begin_walk begins]
      have unended : begun.toWalk.ended = false := by
        rw [begin_walk begins]
        exact unfinished
      cases found with
      | none =>
          have nothing (record : K × V) : ¬ begun.toWalk.IsNext map record := by
            intro next
            rw [← least_seeking, ← least] at next
            cases next
          have ends : begun.toWalk.Nexts map none { begun.toWalk with ended := true } :=
            .ends unended (fun record next => absurd next (nothing record))
          cases begun <;> exact ends
      | some entry =>
          have next : begun.toWalk.IsNext map entry.record := least_seeking.mp least.symm
          cases begun with
          | iter last finished => exact .comes unended next trivial
          | range start stop last started finished =>
              rw [Cursor.finish]
              split_ifs with inside
              · exact .comes unended next (insideEndBound_iff.mp inside)
              · refine .ends unended (fun record isNext => ?_)
                rw [isNext.unique next]
                exact fun admits => inside (insideEndBound_iff.mpr admits)

end BLink
