import Mathlib.Data.List.Basic
import Mathlib.Data.List.Induction
import Mathlib.Order.Basic

/-! Raw memory: allocations of slots that hold a value or not, and the operations on pointers
to slots. Reading or dropping moves a value out of its slot, whose bytes stay behind; an
operation that touches such a slot, leaves its allocation or loses a value is a fault.
-/

namespace Library

universe u

/-- A slot has never held a value, or holds one, or its value has been moved away. -/
inductive Slot (α : Type u) where
  | uninit
  | holds (value : α)
  | moved (value : α)

/-- An access without a meaning, or one that would lose a value. -/
inductive Fault where
  | outOfBounds
  | notInitialized
  | overwrites
  | overlaps
  deriving DecidableEq, Repr

/-- A pointer to a slot of an allocation. -/
structure Pointer where
  block : Nat
  offset : Nat

/-- The allocations made so far, and the values whose destructors have been started. -/
structure Memory (α : Type u) where
  count : Nat
  size : Nat → Nat
  slot : Nat → Nat → Slot α
  dropped : List α

variable {α : Type u}

/-- The value that the slot holds. -/
def Slot.value? : Slot α → Option α
  | .holds value => some value
  | .uninit | .moved _ => none

/-- The slot after its value has been moved away. -/
def Slot.vacated : Slot α → Slot α
  | .holds value => .moved value
  | .uninit => .uninit
  | .moved value => .moved value

@[simp, grind =] theorem Slot.value?_holds (value : α) : (Slot.holds value).value? = some value := rfl

@[simp, grind =] theorem Slot.value?_moved (value : α) : (Slot.moved value).value? = none := rfl

@[simp, grind =] theorem Slot.value?_vacated (slot : Slot α) : slot.vacated.value? = none := by
  cases slot <;> rfl

namespace Memory

/-- The value at a place. -/
def value? (m : Memory α) (block offset : Nat) : Option α := (m.slot block offset).value?

/-- The offset lies in the range of `count` slots from the pointer on. -/
def InRange (p : Pointer) (count block offset : Nat) : Prop :=
  block = p.block ∧ p.offset ≤ offset ∧ offset < p.offset + count

instance (p : Pointer) (count block offset : Nat) : Decidable (InRange p count block offset) :=
  inferInstanceAs (Decidable (_ ∧ _ ∧ _))

/-- One slot is given anew. -/
def setSlot (m : Memory α) (p : Pointer) (slot : Slot α) : Memory α :=
  { m with
    slot := fun block offset =>
      if block = p.block ∧ offset = p.offset then slot else m.slot block offset }

/-- `alloc`: a new allocation of `size` slots. -/
def alloc (m : Memory α) (size : Nat) : Nat × Memory α :=
  (m.count, {
    m with
    count := m.count + 1
    size := fun block => if block = m.count then size else m.size block
    slot := fun block offset => if block = m.count then .uninit else m.slot block offset
  })

/-- `ptr::write`: the slot gets the value; nothing is dropped. -/
def write (m : Memory α) (p : Pointer) (value : α) : Except Fault (Memory α) :=
  if m.size p.block ≤ p.offset then
    .error .outOfBounds
  else if (m.value? p.block p.offset).isSome then
    .error .overwrites
  else
    .ok (m.setSlot p (.holds value))

/-- `ptr::read`: the value is moved out of its slot. -/
def read (m : Memory α) (p : Pointer) : Except Fault (α × Memory α) :=
  if m.size p.block ≤ p.offset then
    .error .outOfBounds
  else
    match m.value? p.block p.offset with
    | some value => .ok (value, m.setSlot p (.moved value))
    | none => .error .notInitialized

/-- `ptr::drop_in_place`: the destructor of the value is started, and it is gone. -/
def dropInPlace (m : Memory α) (p : Pointer) : Except Fault (Memory α) := do
  let (value, m) ← m.read p
  return { m with dropped := m.dropped ++ [value] }

/-- The slots after `count` values have been moved from `src` to `dst`. -/
def copied (m : Memory α) (src dst : Pointer) (count block offset : Nat) : Slot α :=
  if InRange dst count block offset then
    m.slot src.block (src.offset + (offset - dst.offset))
  else if InRange src count block offset then
    (m.slot block offset).vacated
  else
    m.slot block offset

/-- `ptr::copy`: `count` values are moved; the two ranges may overlap. -/
def copy (m : Memory α) (src dst : Pointer) (count : Nat) : Except Fault (Memory α) :=
  if m.size src.block < src.offset + count ∨ m.size dst.block < dst.offset + count then
    .error .outOfBounds
  else if ∃ k, k < count ∧ (m.value? src.block (src.offset + k)).isNone then
    .error .notInitialized
  else if
    ∃ k, k < count
      ∧ ¬ InRange src count dst.block (dst.offset + k)
      ∧ (m.value? dst.block (dst.offset + k)).isSome then
    .error .overwrites
  else
    .ok { m with slot := m.copied src dst count }

/-- `ptr::copy_nonoverlapping`. -/
def copyNonoverlapping (m : Memory α) (src dst : Pointer) (count : Nat)
    : Except Fault (Memory α) :=
  if
    src.block = dst.block ∧ src.offset < dst.offset + count ∧ dst.offset < src.offset + count then
    .error .overlaps
  else
    m.copy src dst count

/-- `slice::from_raw_parts`: all slots of the slice must hold values. -/
def slice (m : Memory α) (p : Pointer) (count : Nat) : Except Fault (List α) :=
  if m.size p.block < p.offset + count then
    .error .outOfBounds
  else if ∃ k, k < count ∧ (m.value? p.block (p.offset + k)).isNone then
    .error .notInitialized
  else
    .ok ((List.range count).filterMap (fun k => m.value? p.block (p.offset + k)))

/-- The allocation holds exactly the items, from its first slot on. -/
def Contains (m : Memory α) (block : Nat) (items : List α) : Prop :=
  ∀ offset, m.value? block offset = items[offset]?

variable {m : Memory α} {p src dst : Pointer} {value : α} {items : List α}
  {count block offset : Nat}

theorem value?_setSlot (slot : Slot α)
    : (m.setSlot p slot).value? block offset
      = if block = p.block ∧ offset = p.offset then slot.value? else m.value? block offset := by
  simp only [value?, setSlot]
  split_ifs <;> rfl

theorem value?_copied
    : ({ m with slot := m.copied src dst count } : Memory α).value? block offset
      = if InRange dst count block offset then
          m.value? src.block (src.offset + (offset - dst.offset))
        else if InRange src count block offset then none
        else m.value? block offset := by
  show (m.copied src dst count block offset).value? = _
  rw [copied]
  split_ifs
  · rfl
  · exact Slot.value?_vacated _
  · rfl

/-- Other allocations keep what they hold. -/
theorem value?_setSlot_of_ne {slot : Slot α} (differs : block ≠ p.block)
    : (m.setSlot p slot).value? block offset = m.value? block offset := by
  rw [value?_setSlot, if_neg (fun both => differs both.1)]

theorem value?_copied_of_ne (notSrc : block ≠ src.block) (notDst : block ≠ dst.block)
    : ({ m with slot := m.copied src dst count } : Memory α).value? block offset
      = m.value? block offset := by
  rw [value?_copied, if_neg (fun inside => notDst inside.1), if_neg (fun inside => notSrc inside.1)]

/-- Exactly the slots of the items hold values. -/
theorem Contains.isSome_iff (contains : m.Contains block items)
    : (m.value? block offset).isSome ↔ offset < items.length := by
  rw [contains, ← Option.ne_none_iff_isSome, ne_eq, List.getElem?_eq_none_iff, Nat.not_le]

theorem Contains.eq_none (contains : m.Contains block items) (le : items.length ≤ offset)
    : m.value? block offset = none := by
  rw [contains]
  exact List.getElem?_eq_none le

/-- A value is put behind the last item. -/
theorem Contains.put_last (contains : m.Contains block items) (value : α)
    : (m.setSlot ⟨block, items.length⟩ (.holds value)).Contains block (items ++ [value]) := by
  intro offset
  rw [value?_setSlot, contains]
  by_cases last : offset = items.length
  · simp [last]
  · rw [if_neg (fun both => last both.2)]
    by_cases inside : offset < items.length
    · rw [List.getElem?_append_left inside]
    · rw [List.getElem?_eq_none (by omega), List.getElem?_eq_none (by simp; omega)]

/-- The last item is moved away. -/
theorem Contains.take_last (contains : m.Contains block (items ++ [value]))
    : (m.setSlot ⟨block, items.length⟩ (.moved value)).Contains block items := by
  intro offset
  rw [value?_setSlot, contains]
  by_cases last : offset = items.length
  · simp [last]
  · rw [if_neg (fun both => last both.2)]
    by_cases inside : offset < items.length
    · rw [List.getElem?_append_left inside]
    · rw [List.getElem?_eq_none (by simp; omega), List.getElem?_eq_none (by omega)]

/-- The items from the index on are shifted right by one, and a value is put into the gap. -/
theorem Contains.put_at {index : Nat} (contains : m.Contains block items)
    (bound : index ≤ items.length) (value : α)
    : (Memory.setSlot
          { m with slot := m.copied ⟨block, index⟩ ⟨block, index + 1⟩ (items.length - index) }
          ⟨block, index⟩ (.holds value)).Contains block (items.insertIdx index value) := by
  intro offset
  rw [value?_setSlot, value?_copied, List.getElem?_insertIdx, contains, contains]
  unfold InRange
  split_ifs <;> grind

/-- The item at the index is moved away, and those behind it are shifted left by one. -/
theorem Contains.take_at {index : Nat} (contains : m.Contains block items)
    (bound : index < items.length)
    : (let m' := m.setSlot ⟨block, index⟩ (.moved items[index])
      { m' with
        slot := m'.copied ⟨block, index + 1⟩ ⟨block, index⟩ (items.length - index - 1)
      } : Memory α).Contains block (items.eraseIdx index) := by
  intro offset
  rw [value?_copied, value?_setSlot, value?_setSlot, List.getElem?_eraseIdx, contains, contains]
  unfold InRange
  split_ifs <;> grind

/-- The items of another allocation are moved behind the last item. -/
theorem Contains.append {other : Nat} {others : List α} (contains : m.Contains block items)
    (containsOther : m.Contains other others) (apart : other ≠ block)
    : ({ m with slot := m.copied ⟨other, 0⟩ ⟨block, items.length⟩ others.length }
          : Memory α).Contains block (items ++ others) := by
  intro offset
  rw [value?_copied, contains, containsOther, List.getElem?_append]
  unfold InRange
  split_ifs <;> grind

/-- An allocation all items of which have been moved to another one is empty. -/
theorem Contains.emptied {other start : Nat} {others : List α}
    (containsOther : m.Contains other others) (apart : other ≠ block)
    : ({ m with slot := m.copied ⟨other, 0⟩ ⟨block, start⟩ others.length }
          : Memory α).Contains other [] := by
  intro offset
  rw [value?_copied, containsOther offset]
  unfold InRange
  split_ifs <;> grind

/-- The items are shifted right, and those of another allocation are moved before them. -/
theorem Contains.prepend {other : Nat} {others : List α} (contains : m.Contains block items)
    (containsOther : m.Contains other others) (apart : other ≠ block)
    : (let m' := { m with slot := m.copied ⟨block, 0⟩ ⟨block, others.length⟩ items.length }
      { m' with slot := Memory.copied m' ⟨other, 0⟩ ⟨block, 0⟩ others.length }
          : Memory α).Contains block (others ++ items) := by
  intro offset
  rw [value?_copied, value?_copied, value?_copied, contains, contains, contains, containsOther,
    List.getElem?_append]
  unfold InRange
  split_ifs <;> grind

/-- The items from the index on have been moved to another allocation. -/
theorem Contains.front {other index : Nat} (contains : m.Contains block items)
    (apart : other ≠ block)
    : ({ m with slot := m.copied ⟨block, index⟩ ⟨other, 0⟩ (items.length - index) }
          : Memory α).Contains block (items.take index) := by
  intro offset
  rw [value?_copied, contains offset, List.getElem?_take]
  unfold InRange
  split_ifs <;> grind

/-- They have been moved to an empty allocation. -/
theorem Contains.back {other index : Nat} (contains : m.Contains block items)
    (containsOther : m.Contains other []) (apart : other ≠ block)
    : ({ m with slot := m.copied ⟨block, index⟩ ⟨other, 0⟩ (items.length - index) }
          : Memory α).Contains other (items.drop index) := by
  intro offset
  rw [value?_copied, contains, containsOther, List.getElem?_drop]
  unfold InRange
  split_ifs <;> grind

-----------------------------------------------------------------------------------------
-- Operations without a fault
-----------------------------------------------------------------------------------------

theorem write_ok (value : α) (bound : p.offset < m.size p.block)
    (vacant : m.value? p.block p.offset = none)
    : m.write p value = .ok (m.setSlot p (.holds value)) := by
  rw [write, if_neg (Nat.not_le.mpr bound), vacant]
  rfl

theorem read_ok (bound : p.offset < m.size p.block)
    (holds : m.value? p.block p.offset = some value)
    : m.read p = .ok (value, m.setSlot p (.moved value)) := by
  rw [read, if_neg (Nat.not_le.mpr bound), holds]

theorem dropInPlace_ok (bound : p.offset < m.size p.block)
    (holds : m.value? p.block p.offset = some value)
    : m.dropInPlace p
      = .ok { m.setSlot p (.moved value) with dropped := m.dropped ++ [value] } := by
  rw [dropInPlace, read_ok bound holds]
  rfl

theorem copy_ok (srcBound : src.offset + count ≤ m.size src.block)
    (dstBound : dst.offset + count ≤ m.size dst.block)
    (initialized : ∀ k, k < count → (m.value? src.block (src.offset + k)).isSome)
    (vacant
      : ∀ k,
          k < count → ¬ InRange src count dst.block (dst.offset + k)
          → m.value? dst.block (dst.offset + k) = none)
    : m.copy src dst count = .ok { m with slot := m.copied src dst count } := by
  have inside
      : ¬ (m.size src.block < src.offset + count ∨ m.size dst.block < dst.offset + count) := by
    omega
  have allHold : ¬ ∃ k, k < count ∧ (m.value? src.block (src.offset + k)).isNone := by
    intro missing
    obtain ⟨k, less, none⟩ := missing
    have some := initialized k less
    rw [Option.isNone_iff_eq_none.mp none] at some
    cases some
  have noneLost
      : ¬ ∃ k, k < count
          ∧ ¬ InRange src count dst.block (dst.offset + k)
          ∧ (m.value? dst.block (dst.offset + k)).isSome := by
    intro lost
    obtain ⟨k, less, outside, some⟩ := lost
    rw [vacant k less outside] at some
    cases some
  rw [copy, if_neg inside, if_neg allHold, if_neg noneLost]

/-- Items can be shifted right as far as there is room. -/
theorem Contains.copy_right {index start : Nat} (contains : m.Contains block items)
    (bound : index ≤ items.length) (forward : index ≤ start)
    (room : start + (items.length - index) ≤ m.size block)
    : m.copy ⟨block, index⟩ ⟨block, start⟩ (items.length - index)
      = .ok {
          m with
          slot := m.copied ⟨block, index⟩ ⟨block, start⟩ (items.length - index)
        } := by
  apply copy_ok
  · exact Nat.le_trans (Nat.add_le_add_right forward _) room
  · exact room
  · intro k less
    apply contains.isSome_iff.mpr
    show index + k < items.length
    omega
  · intro k less outside
    apply contains.eq_none
    show items.length ≤ start + k
    by_contra inside
    refine outside ⟨rfl, Nat.le_trans forward (Nat.le_add_right start k), ?_⟩
    show start + k < index + (items.length - index)
    omega

/-- Shifting items right by one leaves a gap. -/
theorem Contains.gap {index : Nat} (contains : m.Contains block items)
    (bound : index ≤ items.length)
    : ({ m with slot := m.copied ⟨block, index⟩ ⟨block, index + 1⟩ (items.length - index) }
          : Memory α).value? block index = none := by
  rw [value?_copied, contains index]
  unfold InRange
  split_ifs <;> grind

/-- The items behind a vacated slot can be shifted left by one. -/
theorem Contains.copy_left {index : Nat} (contains : m.Contains block items) (value : α)
    (bound : index < items.length) (room : items.length ≤ m.size block)
    : (m.setSlot ⟨block, index⟩ (.moved value)).copy ⟨block, index + 1⟩ ⟨block, index⟩
          (items.length - index - 1)
      = .ok {
          m.setSlot ⟨block, index⟩ (.moved value) with
          slot := (m.setSlot ⟨block, index⟩ (.moved value)).copied ⟨block, index + 1⟩
            ⟨block, index⟩ (items.length - index - 1)
        } := by
  apply copy_ok
  · show index + 1 + (items.length - index - 1) ≤ m.size block
    omega
  · show index + (items.length - index - 1) ≤ m.size block
    omega
  · intro k less
    rw [value?_setSlot, if_neg (by simp only; omega)]
    apply contains.isSome_iff.mpr
    show index + 1 + k < items.length
    omega
  · intro k less outside
    rw [value?_setSlot]
    cases k with
    | zero => simp
    | succ k =>
        refine absurd ⟨rfl, ?_, ?_⟩ outside
        · show index + 1 ≤ index + (k + 1)
          omega
        · show index + (k + 1) < index + 1 + (items.length - index - 1)
          omega

/-- Between two allocations nothing overlaps. -/
theorem copyNonoverlapping_ok (apart : src.block ≠ dst.block)
    (srcBound : src.offset + count ≤ m.size src.block)
    (dstBound : dst.offset + count ≤ m.size dst.block)
    (initialized : ∀ k, k < count → (m.value? src.block (src.offset + k)).isSome)
    (vacant : ∀ k, k < count → m.value? dst.block (dst.offset + k) = none)
    : m.copyNonoverlapping src dst count = .ok { m with slot := m.copied src dst count } := by
  rw [copyNonoverlapping, if_neg (fun overlap => apart overlap.1)]
  exact copy_ok srcBound dstBound initialized (fun k less _ => vacant k less)

/-- The items from the index on can be moved behind the items of another allocation. -/
theorem Contains.transfer {index other : Nat} {others : List α} (start : Nat)
    (contains : m.Contains block items) (containsOther : m.Contains other others)
    (apart : block ≠ other) (bound : index ≤ items.length) (fits : items.length ≤ m.size block)
    (vacant : others.length ≤ start) (room : start + (items.length - index) ≤ m.size other)
    : m.copyNonoverlapping ⟨block, index⟩ ⟨other, start⟩ (items.length - index)
      = .ok {
          m with
          slot := m.copied ⟨block, index⟩ ⟨other, start⟩ (items.length - index)
        } := by
  refine copyNonoverlapping_ok apart ?_ room ?_ ?_
  · show index + (items.length - index) ≤ m.size block
    omega
  · intro k less
    apply contains.isSome_iff.mpr
    show index + k < items.length
    omega
  · intro k less
    exact containsOther.eq_none (Nat.le_trans vacant (Nat.le_add_right start k))

/-- Once the items have been shifted right, the items of another allocation can be moved before
them.
-/
theorem Contains.transfer_front {other : Nat} {others : List α}
    (contains : m.Contains block items) (containsOther : m.Contains other others)
    (apart : other ≠ block) (fits : others.length ≤ m.size other)
    (room : others.length ≤ m.size block)
    : (let m' := { m with slot := m.copied ⟨block, 0⟩ ⟨block, others.length⟩ items.length }
      m'.copyNonoverlapping ⟨other, 0⟩ ⟨block, 0⟩ others.length
      = .ok { m' with slot := Memory.copied m' ⟨other, 0⟩ ⟨block, 0⟩ others.length }) := by
  refine copyNonoverlapping_ok apart ?_ ?_ ?_ ?_
  · simpa using fits
  · simpa using room
  · intro k less
    rw [value?_copied_of_ne apart apart]
    apply containsOther.isSome_iff.mpr
    simpa using less
  · intro k less
    rw [value?_copied, if_neg, contains]
    · unfold InRange
      split_ifs <;> grind
    · intro inside
      have behind : others.length ≤ 0 + k := inside.2.1
      omega

/-- Reading a list from its first to its last index gives the list. -/
theorem filterMap_getElem?_range (items : List α)
    : (List.range items.length).filterMap (fun k => items[k]?) = items := by
  induction items using List.reverseRecOn with
  | nil => rfl
  | append_singleton front last ih =>
      rw [List.length_append, List.length_singleton, List.range_succ, List.filterMap_append]
      congr 1
      · refine Eq.trans (List.filterMap_congr (fun k member => ?_)) ih
        exact List.getElem?_append_left (List.mem_range.mp member)
      · simp

/-- The slice of all items. -/
theorem slice_ok (contains : m.Contains block items) (bound : items.length ≤ m.size block)
    : m.slice ⟨block, 0⟩ items.length = .ok items := by
  have inside : ¬ m.size block < 0 + items.length := by omega
  have allHold : ¬ ∃ k, k < items.length ∧ (m.value? block (0 + k)).isNone := by
    intro missing
    obtain ⟨k, less, none⟩ := missing
    have some := contains.isSome_iff.mpr less
    rw [← Nat.zero_add k, Option.isNone_iff_eq_none.mp none] at some
    cases some
  rw [slice, if_neg inside, if_neg allHold]
  simp only [Nat.zero_add, contains _]
  rw [filterMap_getElem?_range]

end Memory

end Library
