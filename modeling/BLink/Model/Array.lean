import BLink.Model.Handle
import Mathlib.Data.List.Basic
import Mathlib.Data.List.InsertIdx

/-! The fixed-capacity array at the level of its contents.
An array is the list of its initialized elements; an operation that could exceed the
declared capacity takes that capacity, and a violated check panics as in the source.
-/

namespace BLink.Array

variable {α : Type}

/-- Appends `value` to the initialized range. -/
def push (cap : Nat) (items : List α) (value : α) : Except Panic (List α) :=
  if items.length < cap then
    .ok (items ++ [value])
  else
    .error (.assertion "Array capacity exceeded")

/-- Inserts `value` at `index`, shifting the initialized suffix right. -/
def insert (cap : Nat) (items : List α) (index : Nat) (value : α) : Except Panic (List α) :=
  if ¬ index ≤ items.length then
    .error (.assertion "index out of bounds")
  else if ¬ items.length < cap then
    .error (.assertion "Array capacity exceeded")
  else
    .ok (items.insertIdx index value)

/-- Removes and returns the element at `index`, shifting its suffix left. -/
def remove (items : List α) (index : Nat) : Except Panic (α × List α) :=
  match items[index]? with
  | some value => .ok (value, items.eraseIdx index)
  | none => .error (.assertion "index out of bounds")

/-- Removes and returns the last element, or `none` when empty. -/
def pop (items : List α) : Option (α × List α) :=
  items.getLast?.map (fun value => (value, items.dropLast))

/-- Moves the range `at..len` into a new array with the same capacity. -/
def splitOff (items : List α) (index : Nat) : Except Panic (List α × List α) :=
  if index ≤ items.length then
    .ok (items.take index, items.drop index)
  else
    .error (.assertion "index out of bounds")

/-- Moves every element from `other` onto the end of `items`. -/
def appendFrom (cap : Nat) (items other : List α) : Except Panic (List α) :=
  if items.length + other.length ≤ cap then
    .ok (items ++ other)
  else
    .error (.assertion "Array capacity exceeded")

/-- Moves every element from `other` onto the beginning of `items`. -/
def prependFrom (cap : Nat) (items other : List α) : Except Panic (List α) :=
  if items.length + other.length ≤ cap then
    .ok (other ++ items)
  else
    .error (.assertion "Array capacity exceeded")

/-- Indexing, `array[index]`. -/
def index (items : List α) (index : Nat) : Except Panic α :=
  match items[index]? with
  | some value => .ok value
  | none => .error .indexOutOfBounds

/-- Assignment through an index, `array[index] = value`. -/
def assign (items : List α) (index : Nat) (value : α) : Except Panic (List α) :=
  if index < items.length then .ok (items.set index value) else .error .indexOutOfBounds

-----------------------------------------------------------------------------------------
-- What the operations return where their checks hold
-----------------------------------------------------------------------------------------

theorem push_ok (cap : Nat) {items : List α} (value : α) (room : items.length < cap)
    : push cap items value = .ok (items ++ [value]) := by
  simp [push, room]

theorem insertIdx_append_length (front back : List α) (value : α)
    : (front ++ back).insertIdx front.length value = front ++ value :: back := by
  induction front with
  | nil => rfl
  | cons head front ih => simp [ih]

theorem insert_ok (cap : Nat) (front back : List α) (value : α)
    (room : (front ++ back).length < cap)
    : insert cap (front ++ back) front.length value = .ok (front ++ value :: back) := by
  have bound : front.length ≤ (front ++ back).length := by simp
  simp only [insert, bound, room, not_true_eq_false, if_false, insertIdx_append_length]

theorem remove_ok (front : List α) (value : α) (back : List α)
    : remove (front ++ value :: back) front.length = .ok (value, front ++ back) := by
  simp [remove, List.eraseIdx_append_of_length_le]

theorem pop_append (front : List α) (value : α)
    : pop (front ++ [value]) = some (value, front) := by
  simp [pop]

theorem splitOff_append (front back : List α)
    : splitOff (front ++ back) front.length = .ok (front, back) := by
  simp [splitOff]

theorem prependFrom_ok (cap : Nat) (items other : List α)
    (room : items.length + other.length ≤ cap)
    : prependFrom cap items other = .ok (other ++ items) := by
  simp [prependFrom, room]

theorem index_append (front : List α) (value : α) (back : List α)
    : index (front ++ value :: back) front.length = .ok value := by
  simp [index]

theorem assign_append (front : List α) (old : α) (back : List α) (value : α)
    : assign (front ++ old :: back) front.length value = .ok (front ++ value :: back) := by
  simp [assign]

end BLink.Array
