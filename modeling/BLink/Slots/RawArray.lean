import BLink.Library.RawMemory
import BLink.Model.Array
import Mathlib.Algebra.Group.Nat.Defs
import Mathlib.Logic.Function.Basic

/-! The methods of the fixed-capacity array, over raw slots.
An array is an allocation with the number of its initialized elements. A method that panics
leaves behind what it has done before.
-/

namespace BLink

open Library

/-- How a method can fail: a check of its own panics, it touches memory that it must not touch,
or the destructor of an element panics.
-/
inductive Failure where
  | panic (panic : Panic)
  | fault (fault : Fault)
  | destructor
  deriving DecidableEq, Repr

/-- All arrays. An array is named by its allocation, which never moves; `len` and `cap` are its
other fields.
-/
structure Arrays (α : Type) where
  memory : Memory α
  len : Nat → Nat
  cap : Nat → Nat

/-- A method of arrays. -/
def Method (α β : Type) := Arrays α → Except Failure β × Arrays α

namespace Method

variable {α β γ : Type}

instance : Monad (Method α) where
  pure value := fun s => (.ok value, s)
  bind first next := fun s =>
    match first s with
    | (.ok value, s') => next value s'
    | (.error failure, s') => (.error failure, s')

/-- `self.len`. -/
def getLen (self : Nat) : Method α Nat := fun s => (.ok (s.len self), s)

/-- `self.len = len`. -/
def setLen (self len : Nat) : Method α Unit := fun s =>
  (.ok (), { s with len := Function.update s.len self len })

/-- `self.cap`. -/
def getCap (self : Nat) : Method α Nat := fun s => (.ok (s.cap self), s)

/-- `assert!`. -/
def assert (condition : Prop) [Decidable condition] (message : String) : Method α Unit := fun s =>
  (if condition then .ok () else .error (.panic (.assertion message)), s)

/-- `Option::expect` of a value that is there on the condition. -/
def expectIf (condition : Prop) [Decidable condition] (message : String) (value : β)
    : Method α β :=
  fun s => (if condition then .ok value else .error (.panic (.expected message)), s)

/-- An operation on pointers that returns nothing. -/
def access (operation : Memory α → Except Fault (Memory α)) : Method α Unit := fun s =>
  match operation s.memory with
  | .ok memory => (.ok (), { s with memory })
  | .error fault => (.error (.fault fault), s)

/-- `ptr::read`. -/
def read (p : Pointer) : Method α α := fun s =>
  match s.memory.read p with
  | .ok (value, memory) => (.ok value, { s with memory })
  | .error fault => (.error (.fault fault), s)

/-- `slice::from_raw_parts`. -/
def slice (p : Pointer) (count : Nat) : Method α (List α) := fun s =>
  match s.memory.slice p count with
  | .ok items => (.ok items, s)
  | .error fault => (.error (.fault fault), s)

/-- The allocation of an array without elements. -/
def create (cap : Nat) : Method α Nat := fun s =>
  let (ptr, memory) := s.memory.alloc cap
  (.ok ptr, {
    memory
    len := Function.update s.len ptr 0
    cap := Function.update s.cap ptr cap
  })

/-- The destructor of an element panics. -/
def unwind : Method α β := fun s => (.error .destructor, s)

variable {s s' : Arrays α} {first : Method α β} {next : β → Method α γ} {value : β}

/-- A method goes on from where its first part has succeeded. -/
theorem bind_ok (succeeds : first s = (.ok value, s')) : (first >>= next) s = next value s' := by
  show (match first s with
    | (.ok value, s') => next value s'
    | (.error failure, s') => (.error failure, s')) = _
  rw [succeeds]

theorem bind_error {failure : Failure} (fails : first s = (.error failure, s'))
    : (first >>= next) s = (.error failure, s') := by
  show (match first s with
    | (.ok value, s') => next value s'
    | (.error failure, s') => (.error failure, s')) = _
  rw [fails]

@[simp] theorem pure_run (value : β) : (pure value : Method α β) s = (.ok value, s) := rfl

@[simp] theorem getLen_bind {self : Nat} {next : Nat → Method α γ}
    : (getLen self >>= next) s = next (s.len self) s := rfl

@[simp] theorem getCap_bind {self : Nat} {next : Nat → Method α γ}
    : (getCap self >>= next) s = next (s.cap self) s := rfl

@[simp] theorem setLen_bind {self len : Nat} {next : Unit → Method α γ}
    : (setLen self len >>= next) s
      = next () { s with len := Function.update s.len self len } := rfl

@[simp] theorem assert_bind {condition : Prop} [Decidable condition] {message : String}
    {next : Unit → Method α γ}
    : (assert condition message >>= next) s
      = if condition then next () s else (.error (.panic (.assertion message)), s) := by
  by_cases holds : condition
  · rw [if_pos holds, bind_ok (by rw [assert, if_pos holds])]
  · rw [if_neg holds, bind_error (by rw [assert, if_neg holds])]

@[simp] theorem expectIf_bind {condition : Prop} [Decidable condition] {message : String}
    : (expectIf condition message value >>= next) s
      = if condition then next value s else (.error (.panic (.expected message)), s) := by
  by_cases holds : condition
  · rw [if_pos holds, bind_ok (by rw [expectIf, if_pos holds])]
  · rw [if_neg holds, bind_error (by rw [expectIf, if_neg holds])]

theorem access_bind {operation : Memory α → Except Fault (Memory α)} {memory : Memory α}
    {next : Unit → Method α γ} (succeeds : operation s.memory = .ok memory)
    : (access operation >>= next) s = next () { s with memory } :=
  bind_ok (by rw [access, succeeds])

theorem read_bind {p : Pointer} {item : α} {memory : Memory α} {next : α → Method α γ}
    (succeeds : s.memory.read p = .ok (item, memory))
    : (read p >>= next) s = next item { s with memory } :=
  bind_ok (by rw [read, succeeds])

end Method

namespace Arrays

variable {α : Type}

open Method

/-- The values of `usize` are below this bound. -/
def usizeBound : Nat := 2 ^ 64

/-- `Layout::array` accepts arrays of at most `isize::MAX` bytes. -/
def layoutBound : Nat := 2 ^ 63

/-- Allocates storage for exactly `cap` values without initializing any. -/
def withCapacity (elementSize cap : Nat) : Method α Nat := do
  assert (cap > 0) "capacity must be greater than zero"
  let cap ← expectIf (cap * elementSize < layoutBound) "Array capacity overflow" cap
  create cap

/-- Views all initialized elements as an immutable slice. -/
def asSlice (self : Nat) : Method α (List α) := do
  let len ← getLen self
  slice ⟨self, 0⟩ len

/-- Moves the range `index..len` into a new array with the same capacity. -/
def splitOff (elementSize self index : Nat) : Method α Nat := do
  let len ← getLen self
  assert (index ≤ len) "index out of bounds"
  let oldLen := len
  let cap ← getCap self
  let other ← withCapacity elementSize cap
  access (·.copyNonoverlapping ⟨self, index⟩ ⟨other, 0⟩ (oldLen - index))
  setLen other (oldLen - index)
  setLen self index
  return other

/-- Moves every element from `other` onto the end of `self`. -/
def appendFrom (self other : Nat) : Method α Unit := do
  let len ← getLen self
  let otherLen ← getLen other
  let newLen ← expectIf (len + otherLen < usizeBound) "Array length overflow" (len + otherLen)
  let cap ← getCap self
  assert (newLen ≤ cap) "Array capacity exceeded"
  if otherLen = 0 then
    return ()
  else
    access (·.copyNonoverlapping ⟨other, 0⟩ ⟨self, len⟩ otherLen)
    setLen self newLen
    setLen other 0

/-- Moves every element from `other` onto the beginning of `self`. -/
def prependFrom (self other : Nat) : Method α Unit := do
  let prefixLen ← getLen other
  let len ← getLen self
  let newLen ← expectIf (len + prefixLen < usizeBound) "Array length overflow" (len + prefixLen)
  let cap ← getCap self
  assert (newLen ≤ cap) "Array capacity exceeded"
  if prefixLen = 0 then
    return ()
  else
    access (·.copy ⟨self, 0⟩ ⟨self, prefixLen⟩ len)
    access (·.copyNonoverlapping ⟨other, 0⟩ ⟨self, 0⟩ prefixLen)
    setLen self newLen
    setLen other 0

/-- The loop of `clear`: `panics` tells which element's destructor panics. Every turn shortens
the array, so that as many turns are enough as it has elements.
-/
def clearLoop (self : Nat) (panics : Nat → Bool) : Nat → Method α Unit
  | 0 => return ()
  | turns + 1 => do
      let len ← getLen self
      if len = 0 then
        return ()
      else
        setLen self (len - 1)
        let len ← getLen self
        access (·.dropInPlace ⟨self, len⟩)
        if panics len then
          unwind
        else
          clearLoop self panics turns

/-- Drops every initialized element and leaves the allocation reusable. -/
def clear (self : Nat) (panics : Nat → Bool) : Method α Unit := do
  let len ← getLen self
  clearLoop self panics len

/-- Appends `value` to the initialized range. -/
def push (self : Nat) (value : α) : Method α Unit := do
  let len ← getLen self
  let cap ← getCap self
  assert (len < cap) "Array capacity exceeded"
  access (·.write ⟨self, len⟩ value)
  setLen self (len + 1)

/-- Inserts `value` at `index`, shifting the initialized suffix right. -/
def insert (self index : Nat) (value : α) : Method α Unit := do
  let len ← getLen self
  assert (index ≤ len) "index out of bounds"
  let cap ← getCap self
  assert (len < cap) "Array capacity exceeded"
  access (·.copy ⟨self, index⟩ ⟨self, index + 1⟩ (len - index))
  access (·.write ⟨self, index⟩ value)
  setLen self (len + 1)

/-- Removes and returns the element at `index`, shifting its suffix left. -/
def remove (self index : Nat) : Method α α := do
  let len ← getLen self
  assert (index < len) "index out of bounds"
  let value ← read ⟨self, index⟩
  access (·.copy ⟨self, index + 1⟩ ⟨self, index⟩ (len - index - 1))
  setLen self (len - 1)
  return value

/-- Removes and returns the last element, or `none` when empty. -/
def pop (self : Nat) : Method α (Option α) := do
  let len ← getLen self
  if len = 0 then
    return none
  else
    setLen self (len - 1)
    let len ← getLen self
    let value ← read ⟨self, len⟩
    return some value

end Arrays

end BLink
