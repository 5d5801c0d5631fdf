import BLink.Library.Simulation
import BLink.Slots.RawArray
import Mathlib.Algebra.BigOperators.Group.Finset.Basic
import Mathlib.Algebra.Order.Group.Multiset

/-! Arrays as what they are for: lists of bounded length.
Each operation on arrays is one on their lists. Every value that is put into a list is in one
list at any time, or has been handed back or dropped once.
-/

namespace BLink

open Library

variable {α : Type}

-----------------------------------------------------------------------------------------
-- Operations
-----------------------------------------------------------------------------------------

/-- An operation on arrays. `panics` tells for which elements the destructor panics. -/
inductive Operation (α : Type) where
  | withCapacity (cap : Nat)
  | asSlice (self : Nat)
  | push (self : Nat) (value : α)
  | pop (self : Nat)
  | insert (self index : Nat) (value : α)
  | remove (self index : Nat)
  | splitOff (self index : Nat)
  | appendFrom (self other : Nat)
  | prependFrom (self other : Nat)
  | clear (self : Nat) (panics : Nat → Bool)

/-- What an operation returns. -/
inductive Answer (α : Type) where
  | unit
  | value (value : α)
  | popped (value : Option α)
  | array (ptr : Nat)
  | slice (items : List α)

/-- The arrays of the operation exist, and two of them are different ones: one of them is
borrowed mutably.
-/
def Operation.Valid (count : Nat) : Operation α → Prop
  | .withCapacity _ => True
  | .asSlice self | .push self _ | .pop self | .insert self _ _ | .remove self _
  | .splitOff self _ | .clear self _ => self < count
  | .appendFrom self other | .prependFrom self other =>
      self < count ∧ other < count ∧ self ≠ other

/-- The operation on raw slots. -/
def Operation.run (elementSize : Nat) : Operation α → Method α (Answer α)
  | .withCapacity cap => do return .array (← Arrays.withCapacity elementSize cap)
  | .asSlice self => do return .slice (← Arrays.asSlice self)
  | .push self value => do
      Arrays.push self value
      return .unit
  | .pop self => do return .popped (← Arrays.pop self)
  | .insert self index value => do
      Arrays.insert self index value
      return .unit
  | .remove self index => do return .value (← Arrays.remove self index)
  | .splitOff self index => do return .array (← Arrays.splitOff elementSize self index)
  | .appendFrom self other => do
      Arrays.appendFrom self other
      return .unit
  | .prependFrom self other => do
      Arrays.prependFrom self other
      return .unit
  | .clear self panics => do
      Arrays.clear self panics
      return .unit

/-- Lists of bounded length, and the values that have been dropped. -/
structure BoundedLists (α : Type) where
  count : Nat
  cap : Nat → Nat
  items : Nat → List α
  dropped : List α

namespace BoundedLists

/-- One list is given anew. -/
def set (a : BoundedLists α) (self : Nat) (items : List α) : BoundedLists α :=
  { a with items := Function.update a.items self items }

/-- One more list. -/
def add (a : BoundedLists α) (cap : Nat) (items : List α) : BoundedLists α :=
  { a with
    count := a.count + 1
    cap := Function.update a.cap a.count cap
    items := Function.update a.items a.count items }

@[simp] theorem set_items_self {a : BoundedLists α} {self : Nat} {items : List α}
    : (a.set self items).items self = items :=
  Function.update_self _ _ _

@[simp] theorem set_items_of_ne {a : BoundedLists α} {self other : Nat} {items : List α}
    (differs : other ≠ self)
    : (a.set self items).items other = a.items other :=
  Function.update_of_ne differs _ _

@[simp] theorem add_items_new {a : BoundedLists α} {cap : Nat} {items : List α}
    : (a.add cap items).items a.count = items :=
  Function.update_self _ _ _

@[simp] theorem add_items_of_ne {a : BoundedLists α} {cap other : Nat} {items : List α}
    (old : other ≠ a.count)
    : (a.add cap items).items other = a.items other :=
  Function.update_of_ne old _ _

/-- The operation gives one list anew, or panics. -/
def commit (a : BoundedLists α) (self : Nat)
    : Except Panic (List α) → Except Failure (Answer α) × BoundedLists α
  | .ok items => (.ok .unit, a.set self items)
  | .error panic => (.error (.panic panic), a)

/-- The operation moves all items of `other` into the list `self`, or panics. -/
def absorb (a : BoundedLists α) (self other : Nat) (joined : Except Panic (List α))
    : Except Failure (Answer α) × BoundedLists α :=
  if (a.items self).length + (a.items other).length < Arrays.usizeBound then
    match joined with
    | .ok items => (.ok .unit, (a.set self items).set other [])
    | .error panic => (.error (.panic panic), a)
  else
    (.error (.panic (.expected "Array length overflow")), a)

/-- How many items are left when items are dropped from the end until a destructor panics. -/
def leftBy (panics : Nat → Bool) : Nat → Nat
  | 0 => 0
  | length + 1 => if panics length then length else leftBy panics length

theorem leftBy_le (panics : Nat → Bool) (length : Nat) : leftBy panics length ≤ length := by
  induction length with
  | zero => exact Nat.le_refl 0
  | succ length ih =>
      rw [leftBy]
      split_ifs
      · exact Nat.le_succ length
      · exact Nat.le_succ_of_le ih

/-- The operation on lists. -/
def perform (elementSize : Nat) (a : BoundedLists α)
    : Operation α → Except Failure (Answer α) × BoundedLists α
  | .withCapacity cap =>
      if ¬ cap > 0 then
        (.error (.panic (.assertion "capacity must be greater than zero")), a)
      else if cap * elementSize < Arrays.layoutBound then
        (.ok (.array a.count), a.add cap [])
      else
        (.error (.panic (.expected "Array capacity overflow")), a)
  | .asSlice self => (.ok (.slice (a.items self)), a)
  | .push self value => a.commit self (Array.push (a.cap self) (a.items self) value)
  | .pop self =>
      match Array.pop (a.items self) with
      | some (value, items) => (.ok (.popped (some value)), a.set self items)
      | none => (.ok (.popped none), a)
  | .insert self index value =>
      a.commit self (Array.insert (a.cap self) (a.items self) index value)
  | .remove self index =>
      match Array.remove (a.items self) index with
      | .ok (value, items) => (.ok (.value value), a.set self items)
      | .error panic => (.error (.panic panic), a)
  | .splitOff self index =>
      match Array.splitOff (a.items self) index with
      | .ok (front, back) => (.ok (.array a.count), (a.set self front).add (a.cap self) back)
      | .error panic => (.error (.panic panic), a)
  | .appendFrom self other =>
      a.absorb self other (Array.appendFrom (a.cap self) (a.items self) (a.items other))
  | .prependFrom self other =>
      a.absorb self other (Array.prependFrom (a.cap self) (a.items self) (a.items other))
  | .clear self panics =>
      let length := (a.items self).length
      let left := leftBy panics length
      (
        if (List.range length).any panics then .error .destructor else .ok .unit,
        { a.set self ((a.items self).take left) with
          dropped := a.dropped ++ ((a.items self).drop left).reverse }
      )

end BoundedLists

/-- Arrays over raw slots, with their operations and what these return. -/
def rawArrays (α : Type) (elementSize : Nat)
    : TransitionSystem (Arrays α) (Operation α × Except Failure (Answer α)) where
  init s := s.memory.count = 0 ∧ s.memory.dropped = []
  step s label s' :=
    label.1.Valid s.memory.count ∧ label.1.run elementSize s = (label.2, s')

/-- Lists of bounded length, with their operations and what these return. -/
def boundedLists (α : Type) (elementSize : Nat)
    : TransitionSystem (BoundedLists α) (Operation α × Except Failure (Answer α)) where
  init a := a.count = 0 ∧ a.dropped = []
  step a label a' :=
    label.1.Valid a.count ∧ a.perform elementSize label.1 = (label.2, a')

end BLink
