import BLink.Model.Node

/-! Iterators and ranges as the state they keep between two calls of `next`.
A call of `next` looks up one candidate record in the tree and then updates that state.
-/

namespace BLink

open Library

/-- An endpoint of a range of keys. -/
inductive Bound (α : Type) where
  | included (value : α)
  | excluded (value : α)
  | unbounded

/-- `Iter` and `Range`: the last key returned, and the sticky exhaustion marker. A range
also keeps its two bounds and whether the start bound has been applied.
-/
inductive Cursor (K : Type) [TotalOrd K] where
  | iter (last : Option (KeyHandle K)) (finished : Bool)
  | range (start stop : Bound (Query K)) (last : Option (KeyHandle K))
    (started finished : Bool)

/-- The lookup that one call of `next` makes in the tree. -/
inductive Seek (K : Type) [TotalOrd K] where
  | exhausted
  | firstEntry
  | entryAtOrAfter (key : Query K) (inclusive : Bool)

variable {K : Type} [TotalOrd K] {V : Type}

/-- `Iter::new`. -/
def Cursor.newIter : Cursor K := .iter none false

/-- Enforces the same invalid-range panic conditions as standard ordered maps. -/
def validateBounds {Q : Type} [TotalOrd Q] (start stop : Bound Q) : Except Panic Unit :=
  let check (first last : Q) (bothExcluded : Bool) : Except Panic Unit :=
    if compare first last = .gt then
      .error (.assertion "range start is greater than range end")
    else if compare first last = .eq ∧ bothExcluded = true then
      .error (.assertion "range start and end are equal and excluded")
    else
      .ok ()
  match start, stop with
  | .included first, .included last => check first last false
  | .included first, .excluded last => check first last false
  | .excluded first, .included last => check first last false
  | .excluded first, .excluded last => check first last true
  | .unbounded, _ => .ok ()
  | _, .unbounded => .ok ()

/-- A bound over borrowed keys as a bound over queries. -/
def Bound.toQuery {Q : Type} [TotalOrd Q] (borrow : K → Q)
    (agree : ∀ a b, compare (borrow a) (borrow b) = compare a b)
    : Bound Q → Bound (Query K)
  | .included value => .included (.ofBorrow borrow agree value)
  | .excluded value => .excluded (.ofBorrow borrow agree value)
  | .unbounded => .unbounded

/-- `Range::new` validates and stores a range cursor. -/
def Cursor.newRange {Q : Type} [TotalOrd Q] (borrow : K → Q)
    (agree : ∀ a b, compare (borrow a) (borrow b) = compare a b) (start stop : Bound Q)
    : Except Panic (Cursor K) := do
  validateBounds start stop
  return .range (start.toQuery borrow agree) (stop.toQuery borrow agree) none false false

/-- Tests a candidate key against a range's upper bound. -/
def insideEndBound (key : KeyHandle K) : Bound (Query K) → Bool
  | .unbounded => true
  | .included stop => (stop.cmp key.key).swap ≠ .gt
  | .excluded stop => (stop.cmp key.key).swap = .lt

/-- How `next` begins: it chooses the lookup, and a range marks its start bound applied. -/
def Cursor.begin : Cursor K → Except Panic (Cursor K × Seek K)
  | .iter last finished =>
      if finished then
        .ok (.iter last finished, .exhausted)
      else
        match last with
        | none => .ok (.iter last finished, .firstEntry)
        | some key => .ok (.iter last finished, .entryAtOrAfter (.ofKey key.key) false)
  | .range start stop last started finished =>
      if finished then
        .ok (.range start stop last started finished, .exhausted)
      else if !started then
        let seek :=
          match start with
          | .unbounded => .firstEntry
          | .included start => .entryAtOrAfter start true
          | .excluded start => .entryAtOrAfter start false
        .ok (.range start stop last true finished, seek)
      else do
        let key ← expect "a started, unfinished range has returned a key" last
        return (.range start stop last started finished, .entryAtOrAfter (.ofKey key.key) false)

/-- How `next` ends: it records the candidate's key and yields the record, or it is
exhausted for good.
-/
def Cursor.finish (candidate : Option (Entry K V))
    : Cursor K → Cursor K × Option (Entry K V)
  | .iter last finished =>
      match candidate with
      | none => (.iter last true, none)
      | some entry => (.iter (some entry.key) finished, some entry)
  | .range start stop last started finished =>
      match candidate with
      | none => (.range start stop last started true, none)
      | some entry =>
          if insideEndBound entry.key stop then
            (.range start stop (some entry.key) started finished, some entry)
          else
            (.range start stop last started true, none)

end BLink
