import BLink.Library.Balance
import BLink.Slots.Refinement

/-! The lifetimes of arrays.
Their owners use arrays until they drop them. An array that is dropped drops its elements and gives
its allocation back, unless its elements have no size; if the destructor of an element panics, the
elements before it and the allocation are leaked.
-/

namespace BLink

open Library

variable {α : Type}

-----------------------------------------------------------------------------------------
-- `Drop for Array`
-----------------------------------------------------------------------------------------

/-- Why an allocation cannot be used or given back: it has been given back, has another layout, or
holds values, which would be lost.
-/
inductive HeapFault where
  | freed
  | layout
  | holdsValues
  deriving DecidableEq, Repr

/-- How the use of an array can fail: as a method fails, or for its allocation. -/
inductive UseFailure where
  | method (failure : Failure)
  | heap (fault : HeapFault)
  deriving DecidableEq, Repr

/-- All arrays, the ones that have been dropped, and the allocations that have been given back. -/
structure Lifetimes (α : Type) where
  arrays : Arrays α
  gone : List Nat
  freed : List Nat

/-- What the owner of an array does with it. -/
inductive Use (α : Type) where
  | operation (operation : Operation α)
  | drop (self : Nat) (panics : Nat → Bool)

/-- The arrays that an operation uses. -/
def Operation.uses : Operation α → List Nat
  | .withCapacity _ => []
  | .asSlice self | .push self _ | .pop self | .insert self _ _ | .remove self _
  | .splitOff self _ | .clear self _ => [self]
  | .appendFrom self other | .prependFrom self other => [self, other]

namespace Lifetimes

/-- `dealloc` of an allocation of `size` slots. -/
def dealloc (l : Lifetimes α) (self size : Nat) : Except HeapFault (Lifetimes α) :=
  if self ∈ l.freed then
    .error .freed
  else if l.arrays.memory.size self ≠ size then
    .error .layout
  else if ∃ offset, offset < size ∧ (l.arrays.memory.value? self offset).isSome then
    .error .holdsValues
  else
    .ok { l with freed := self :: l.freed }

/-- `drop`: drops values before releasing the allocation they occupy. Arrays of values without a
size have no allocation to release.
-/
def drop (elementSize : Nat) (l : Lifetimes α) (self : Nat) (panics : Nat → Bool)
    : Except UseFailure (Answer α) × Lifetimes α :=
  match Arrays.clear self panics l.arrays with
  | (.error failure, arrays) =>
      (.error (.method failure), { l with arrays, gone := self :: l.gone })
  | (.ok (), arrays) =>
      let l := { l with arrays, gone := self :: l.gone }
      if elementSize = 0 then
        (.ok .unit, l)
      else if arrays.cap self * elementSize < Arrays.layoutBound then
        match l.dealloc self (arrays.cap self) with
        | .ok l => (.ok .unit, l)
        | .error fault => (.error (.heap fault), l)
      else
        (
          .error (.method (.panic (.expected "an Array must retain its original valid layout"))),
          l
        )

/-- An operation, on allocations that have not been given back, or the end of an array. -/
def use (elementSize : Nat) (l : Lifetimes α) : Use α → Except UseFailure (Answer α) × Lifetimes α
  | .operation operation =>
      if ∃ array ∈ operation.uses, array ∈ l.freed then
        (.error (.heap .freed), l)
      else
        let (result, arrays) := operation.run elementSize l.arrays
        (result.mapError .method, { l with arrays })
  | .drop self panics => l.drop elementSize self panics

/-- The arrays exist and have not been dropped, and two of them are different ones. -/
def Owns (l : Lifetimes α) : Use α → Prop
  | .operation operation =>
      operation.Valid l.arrays.memory.count ∧ ∀ array ∈ operation.uses, array ∉ l.gone
  | .drop self _ => self < l.arrays.memory.count ∧ self ∉ l.gone

end Lifetimes

/-- Arrays from the first one that is made, with what their owners do with them. -/
def lifetimes (α : Type) (elementSize : Nat)
    : TransitionSystem (Lifetimes α) (Use α × Except UseFailure (Answer α)) where
  init l :=
    l.arrays.memory.count = 0 ∧ l.arrays.memory.dropped = [] ∧ l.gone = [] ∧ l.freed = []
  step l label l' := l.Owns label.1 ∧ l.use elementSize label.1 = (label.2, l')

/-- The value that a successful use puts into an array. -/
def putIn : Use α × Except UseFailure (Answer α) → Multiset α
  | (.operation (.push _ value), .ok _) | (.operation (.insert _ _ value), .ok _) => {value}
  | _ => 0

/-- The value that a use hands back. -/
def handedBack : Use α × Except UseFailure (Answer α) → Multiset α
  | (_, .ok (.value value)) | (_, .ok (.popped (some value))) => {value}
  | _ => 0

-----------------------------------------------------------------------------------------
-- One use
-----------------------------------------------------------------------------------------

variable {elementSize self : Nat} {l l' : Lifetimes α} {a : BoundedLists α}
  {operation : Operation α} {panics : Nat → Bool}

namespace BoundedLists

variable {array : Nat} {other : Nat}

theorem commit_of_not_used {committed : Except Panic (List α)} (differs : array ≠ self)
    : (a.commit self committed).2.items array = a.items array
      ∧ (a.commit self committed).2.count = a.count := by
  cases committed with
  | ok items => exact ⟨set_items_of_ne differs, rfl⟩
  | error => exact ⟨rfl, rfl⟩

theorem absorb_of_not_used {joined : Except Panic (List α)} (differs : array ≠ self)
    (differsOther : array ≠ other)
    : (a.absorb self other joined).2.items array = a.items array
      ∧ (a.absorb self other joined).2.count = a.count := by
  unfold absorb
  split_ifs
  · cases joined with
    | ok items => exact ⟨(set_items_of_ne differsOther).trans (set_items_of_ne differs), rfl⟩
    | error => exact ⟨rfl, rfl⟩
  · exact ⟨rfl, rfl⟩

/-- An operation leaves the arrays alone that it does not use. -/
theorem perform_of_not_used (elementSize : Nat) (operation : Operation α) (present : array < a.count)
    (unused : array ∉ operation.uses)
    : (a.perform elementSize operation).2.items array = a.items array
      ∧ a.count ≤ (a.perform elementSize operation).2.count := by
  cases operation with
  | withCapacity cap =>
      simp only [perform]
      split_ifs
      · exact ⟨add_items_of_ne (Nat.ne_of_lt present), Nat.le_succ _⟩
      · exact ⟨rfl, Nat.le_refl _⟩
      · exact ⟨rfl, Nat.le_refl _⟩
  | asSlice self => exact ⟨rfl, Nat.le_refl _⟩
  | push self value | insert self index value =>
      obtain ⟨items, count⟩ := commit_of_not_used (List.ne_of_not_mem_cons unused)
      exact ⟨items, count.ge⟩
  | pop self =>
      rw [perform]
      cases Array.pop (a.items self) with
      | none => exact ⟨rfl, Nat.le_refl _⟩
      | some popped => exact ⟨set_items_of_ne (List.ne_of_not_mem_cons unused), Nat.le_refl _⟩
  | remove self index =>
      rw [perform]
      cases Array.remove (a.items self) index with
      | error => exact ⟨rfl, Nat.le_refl _⟩
      | ok removed => exact ⟨set_items_of_ne (List.ne_of_not_mem_cons unused), Nat.le_refl _⟩
  | splitOff self index =>
      rw [perform]
      cases Array.splitOff (a.items self) index with
      | error => exact ⟨rfl, Nat.le_refl _⟩
      | ok parts =>
          have old : array ≠ (a.set self parts.1).count := Nat.ne_of_lt present
          exact ⟨(add_items_of_ne old).trans (set_items_of_ne (List.ne_of_not_mem_cons unused)),
            Nat.le_succ _⟩
  | appendFrom self other | prependFrom self other =>
      have differs := List.ne_of_not_mem_cons unused
      have differsOther := List.ne_of_not_mem_cons (List.not_mem_of_not_mem_cons unused)
      obtain ⟨items, count⟩ := absorb_of_not_used differs differsOther
      exact ⟨items, count.ge⟩
  | clear self panics =>
      exact ⟨set_items_of_ne (List.ne_of_not_mem_cons unused), Nat.le_refl _⟩

/-- A list that is cleared is empty, unless a destructor has panicked. -/
theorem perform_clear_cases (elementSize : Nat) (a : BoundedLists α) (self : Nat)
    (panics : Nat → Bool)
    : (a.perform elementSize (.clear self panics)).1 = .ok .unit
        ∧ (a.perform elementSize (.clear self panics)).2.items self = []
      ∨ (a.perform elementSize (.clear self panics)).1 = .error .destructor := by
  obtain ⟨-, -, -, emptied⟩ :=
    perform_clear (rfl : a.perform elementSize (.clear self panics) = (_, _))
  by_cases stops : (List.range (a.items self).length).any panics
  · exact .inr (if_pos stops)
  · exact .inl ⟨if_neg stops, emptied (if_neg stops)⟩

end BoundedLists

/-- The arrays are their lists; those that have been given back have been dropped, once, and hold
nothing.
-/
structure Lifetimes.Sound (elementSize : Nat) (l : Lifetimes α) (a : BoundedLists α) : Prop where
  related : Related elementSize l.arrays a
  gone : ∀ array ∈ l.gone, array < a.count
  freed : ∀ array ∈ l.freed, array ∈ l.gone ∧ a.items array = []
  nodup : l.freed.Nodup

/-- A use fails only in a check of the operation's own or in the destructor of an element. -/
def FailsItself (label : Use α × Except UseFailure (Answer α)) : Prop :=
  ∀ failure,
    label.2 = .error failure
    → failure = .method .destructor
      ∨ ∃ operation panic, label.1 = .operation operation ∧ failure = .method (.panic panic)

/-- The use changes the lists from `a` to `a'`: nothing is lost and nothing doubled; the arrays that
have been dropped stay as they are, and the allocations that have been given back stay so; an array
that is dropped without a panic holds nothing, and its allocation is given back; and a use fails
only in a check of its own, or in the destructor of an element.
-/
structure Lifetimes.Uses (elementSize : Nat) (l : Lifetimes α) (a : BoundedLists α)
    (label : Use α × Except UseFailure (Answer α)) (l' : Lifetimes α) (a' : BoundedLists α)
    : Prop where
  sound : l'.Sound elementSize a'
  balanced
    : a'.owned + (a'.dropped : Multiset α) + handedBack label
      = a.owned + (a.dropped : Multiset α) + putIn label
  gone : ∀ array ∈ l.gone, array ∈ l'.gone ∧ a'.items array = a.items array
  freed : ∀ array ∈ l.freed, array ∈ l'.freed
  dropped
    : ∀ array panics,
        label = (.drop array panics, .ok .unit)
        → array ∈ l'.gone ∧ a'.items array = [] ∧ (elementSize = 0 ∨ array ∈ l'.freed)
  fails : FailsItself label

/-- What an operation puts in and hands back. -/
theorem putIn_operation (operation : Operation α) (performed : Except Failure (Answer α))
    : putIn (.operation operation, performed.mapError .method) = operation.put performed
      ∧ handedBack (.operation operation, performed.mapError .method) = returned performed := by
  cases performed with
  | error failure => cases operation <;> exact ⟨rfl, rfl⟩
  | ok answer =>
      constructor
      · cases operation <;> rfl
      · rcases answer with _ | _ | (_ | _) | _ | _ <;> rfl

/-- An operation on arrays that have not been dropped. -/
theorem Lifetimes.Sound.uses_operation (sound : l.Sound elementSize a)
    (owns : l.Owns (.operation operation))
    : ∃ a',
        l.Uses elementSize a
          (.operation operation, (l.use elementSize (.operation operation)).1)
          (l.use elementSize (.operation operation)).2 a' := by
  obtain ⟨valid, alive⟩ := owns
  have allocated : ¬ ∃ array ∈ operation.uses, array ∈ l.freed := by
    rintro ⟨array, used, isFreed⟩
    exact alive array used (sound.freed array isFreed).1
  have uses
      : l.use elementSize (.operation operation)
        = ((operation.run elementSize l.arrays).1.mapError .method,
            { l with arrays := (operation.run elementSize l.arrays).2 }) := by
    rw [use, if_neg allocated]
  rw [← sound.related.count] at valid
  have agrees := sound.related.agrees operation valid
  have balanced
      : a.Balanced (a.perform elementSize operation).2
          (operation.put (a.perform elementSize operation).1)
          (returned (a.perform elementSize operation).1) :=
    BoundedLists.perform_balanced operation valid
  obtain ⟨put, back⟩ := putIn_operation operation (a.perform elementSize operation).1
  have kept (array : Nat) (isGone : array ∈ l.gone) :=
    BoundedLists.perform_of_not_used elementSize operation (sound.gone array isGone)
      (fun used => alive array used isGone)
  rw [uses, agrees.result]
  refine ⟨(a.perform elementSize operation).2, {
    sound := {
      related := agrees.related
      gone := fun array isGone => Nat.lt_of_lt_of_le (sound.gone array isGone) (kept array isGone).2
      freed := fun array isFreed => ?_
      nodup := sound.nodup
    }
    balanced := by rw [put, back]; exact balanced
    gone := fun array isGone => ⟨isGone, (kept array isGone).1⟩
    freed := fun _ isFreed => isFreed
    dropped := fun _ _ isDrop => by cases isDrop
    fails := ?_
  }⟩
  · obtain ⟨isGone, empty⟩ := sound.freed array isFreed
    exact ⟨isGone, (kept array isGone).1.trans empty⟩
  · intro failure failed
    cases performed : (a.perform elementSize operation).1 with
    | ok answer =>
        rw [performed] at failed
        cases failed
    | error cause =>
        rw [performed] at failed
        cases failed
        cases cause with
        | panic panic => exact .inr ⟨operation, panic, rfl, rfl⟩
        | fault fault => exact absurd performed (a.perform_ne_fault operation fault)
        | destructor => exact .inl rfl

/-- What `clear` does when an array is dropped. -/
theorem Related.clears_once (related : Related elementSize l.arrays a) (present : self < a.count)
    (panics : Nat → Bool)
    : ∃ arrays,
        Related elementSize arrays (a.perform elementSize (.clear self panics)).2
        ∧ (Arrays.clear self panics l.arrays = (.ok (), arrays)
            ∧ (a.perform elementSize (.clear self panics)).1 = .ok .unit
            ∧ (a.perform elementSize (.clear self panics)).2.items self = []
          ∨ Arrays.clear self panics l.arrays = (.error .destructor, arrays)
            ∧ (a.perform elementSize (.clear self panics)).1 = .error .destructor) := by
  have agrees := related.agrees (.clear self panics) present
  have result := agrees.result
  cases cleared : Arrays.clear self panics l.arrays with
  | mk outcome arrays =>
      have runs
          : (Operation.clear self panics).run elementSize l.arrays
            = ((Except.map (fun _ => Answer.unit) outcome), arrays) := by
        cases outcome with
        | ok => exact Method.bind_ok cleared
        | error => exact Method.bind_error cleared
      rw [runs] at result agrees
      refine ⟨arrays, agrees.related, ?_⟩
      cases BoundedLists.perform_clear_cases elementSize a self panics with
      | inl returns =>
          obtain ⟨returns, empty⟩ := returns
          rw [returns] at result
          cases outcome with
          | ok => exact .inl ⟨rfl, returns, empty⟩
          | error => cases result
      | inr unwinds =>
          rw [unwinds] at result
          cases outcome with
          | ok => cases result
          | error failure =>
              cases result
              exact .inr ⟨rfl, unwinds⟩

/-- An array that holds nothing gives its allocation back, if it has one. -/
theorem Related.gives_back (related : Related elementSize l.arrays a) (present : self < a.count)
    (unfreed : self ∉ l.freed) (empty : a.items self = [])
    : l.arrays.cap self * elementSize < Arrays.layoutBound
      ∧ l.dealloc self (l.arrays.cap self) = .ok { l with freed := self :: l.freed } := by
  have holds := related.holds self present
  constructor
  · rw [holds.cap]
    exact related.layout self present
  · have vacant : ¬ ∃ offset,
        offset < l.arrays.cap self ∧ (l.arrays.memory.value? self offset).isSome := by
      rintro ⟨offset, -, isSome⟩
      rw [holds.contains offset, empty] at isSome
      cases isSome
    rw [Lifetimes.dealloc, if_neg unfreed, if_neg (by rw [holds.size, holds.cap]; simp),
      if_neg vacant]

/-- An array that has been cleared is dropped without a failure. -/
theorem Lifetimes.use_drop_of_cleared {arrays : Arrays α}
    (cleared : Arrays.clear self panics l.arrays = (.ok (), arrays))
    (related : Related elementSize arrays a) (present : self < a.count) (unfreed : self ∉ l.freed)
    (empty : a.items self = [])
    : ∃ freed,
        l.use elementSize (.drop self panics)
          = (.ok .unit, { arrays, gone := self :: l.gone, freed })
        ∧ (elementSize = 0 ∧ freed = l.freed ∨ freed = self :: l.freed) := by
  by_cases unsized : elementSize = 0
  · refine ⟨l.freed, ?_, .inl ⟨unsized, rfl⟩⟩
    rw [use, drop, cleared]
    exact if_pos unsized
  · obtain ⟨layout, freed⟩ :=
      Related.gives_back (l := { l with arrays, gone := self :: l.gone }) related present unfreed
        empty
    refine ⟨self :: l.freed, ?_, .inr rfl⟩
    rw [use, drop, cleared]
    simp only [if_neg unsized, if_pos layout, freed]

/-- The end of an array that has not been dropped. -/
theorem Lifetimes.Sound.uses_drop (sound : l.Sound elementSize a)
    (owns : l.Owns (.drop self panics))
    : ∃ a',
        l.Uses elementSize a (.drop self panics, (l.use elementSize (.drop self panics)).1)
          (l.use elementSize (.drop self panics)).2 a' := by
  obtain ⟨present, alive⟩ := owns
  rw [← sound.related.count] at present
  obtain ⟨arrays, related, outcome⟩ := sound.related.clears_once present panics
  have balanced
      : a.Balanced (a.perform elementSize (.clear self panics)).2 0
          (returned (a.perform elementSize (.clear self panics)).1) :=
    BoundedLists.perform_balanced (.clear self panics) present
  have kept (array : Nat) (isGone : array ∈ l.gone)
      : (a.perform elementSize (.clear self panics)).2.items array = a.items array :=
    (BoundedLists.perform_of_not_used elementSize (.clear self panics) (sound.gone array isGone)
      (fun used => alive (List.mem_singleton.mp used ▸ isGone))).1
  have unfreed : self ∉ l.freed := fun isFreed => alive (sound.freed self isFreed).1
  have gone (array : Nat) (isGone : array ∈ self :: l.gone) : array < a.count := by
    cases List.mem_cons.mp isGone with
    | inl same => exact same ▸ present
    | inr before => exact sound.gone array before
  have freed (array : Nat) (isFreed : array ∈ l.freed)
      : array ∈ self :: l.gone
        ∧ (a.perform elementSize (.clear self panics)).2.items array = [] := by
    obtain ⟨isGone, empty⟩ := sound.freed array isFreed
    exact ⟨List.mem_cons_of_mem self isGone, (kept array isGone).trans empty⟩
  refine ⟨(a.perform elementSize (.clear self panics)).2, ?_⟩
  rcases outcome with ⟨cleared, returns, empty⟩ | ⟨cleared, unwinds⟩
  · obtain ⟨freed', uses, grown⟩ := use_drop_of_cleared cleared related present unfreed empty
    have still (array : Nat) (isFreed : array ∈ l.freed) : array ∈ freed' := by
      rcases grown with ⟨-, rfl⟩ | rfl
      · exact isFreed
      · exact List.mem_cons_of_mem self isFreed
    rw [uses]
    rw [returns] at balanced
    exact {
      sound := {
        related
        gone
        freed := fun array isFreed => by
          rcases grown with ⟨-, rfl⟩ | rfl
          · exact freed array isFreed
          · cases List.mem_cons.mp isFreed with
            | inl same =>
                rw [same]
                exact ⟨List.mem_cons_self, empty⟩
            | inr before => exact freed array before
        nodup := by
          rcases grown with ⟨-, rfl⟩ | rfl
          · exact sound.nodup
          · exact List.nodup_cons.mpr ⟨unfreed, sound.nodup⟩
      }
      balanced := balanced
      gone := fun array isGone => ⟨List.mem_cons_of_mem self isGone, kept array isGone⟩
      freed := still
      dropped := fun array _ isDrop => by
        cases isDrop
        refine ⟨List.mem_cons_self, empty, ?_⟩
        rcases grown with ⟨unsized, -⟩ | rfl
        · exact .inl unsized
        · exact .inr List.mem_cons_self
      fails := fun _ failed => by cases failed
    }
  · have uses : l.use elementSize (.drop self panics)
        = (.error (.method .destructor), { l with arrays, gone := self :: l.gone }) := by
      rw [use, drop, cleared]
    rw [uses]
    rw [unwinds] at balanced
    exact {
      sound := { related, gone, freed, nodup := sound.nodup }
      balanced := balanced
      gone := fun array isGone => ⟨List.mem_cons_of_mem self isGone, kept array isGone⟩
      freed := fun _ isFreed => isFreed
      dropped := fun _ _ isDrop => by cases isDrop
      fails := fun failure failed => by
        cases failed
        exact .inl rfl
    }

-----------------------------------------------------------------------------------------
-- Runs
-----------------------------------------------------------------------------------------

variable {start : Lifetimes α} {label : Use α × Except UseFailure (Answer α)}
  {trace : List (Transition (Lifetimes α) (Use α × Except UseFailure (Answer α)))}

theorem Lifetimes.Sound.step (sound : l.Sound elementSize a)
    (step : (lifetimes α elementSize).step l label l')
    : ∃ a', l.Uses elementSize a label l' a' := by
  obtain ⟨use, result⟩ := label
  obtain ⟨owns, uses⟩ := step
  cases use with
  | operation operation =>
      have goes := sound.uses_operation owns
      rwa [uses] at goes
  | drop self panics =>
      have goes := sound.uses_drop owns
      rwa [uses] at goes

theorem Lifetimes.Sound.initial (initial : (lifetimes α elementSize).init l)
    : ∃ a, l.Sound elementSize a ∧ a.owned + (a.dropped : Multiset α) = 0 := by
  obtain ⟨none, nothing, gone, freed⟩ := initial
  obtain ⟨a, ⟨count, dropped⟩, related⟩ := related_simulation.init l.arrays ⟨none, nothing⟩
  refine ⟨a, ⟨related, by simp [gone], by simp [freed], freed ▸ List.nodup_nil⟩, ?_⟩
  rw [BoundedLists.owned, count, dropped]
  rfl

/-- What the trace has come to: no use has failed but by itself, and the arrays whose drop has
returned hold nothing and have been given back.
-/
structure Lifetimes.Told (elementSize : Nat)
    (trace : List (Transition (Lifetimes α) (Use α × Except UseFailure (Answer α))))
    (l : Lifetimes α) (a : BoundedLists α)
    : Prop where
  sound : l.Sound elementSize a
  fails : ∀ transition ∈ trace, FailsItself transition.label
  dropped
    : ∀ transition ∈ trace,
        ∀ array panics,
          transition.label = (.drop array panics, .ok .unit)
          → array ∈ l.gone ∧ a.items array = [] ∧ (elementSize = 0 ∨ array ∈ l.freed)

theorem Lifetimes.Told.step (told : Lifetimes.Told elementSize trace l a)
    (step : (lifetimes α elementSize).step l label l')
    : ∃ a', Lifetimes.Told elementSize (trace ++ [⟨l, label, l'⟩]) l' a' := by
  obtain ⟨a', uses⟩ := told.sound.step step
  refine ⟨a', uses.sound, ?_, ?_⟩
  · intro transition member
    cases List.mem_append.mp member with
    | inl earlier => exact told.fails transition earlier
    | inr last =>
        rw [List.mem_singleton.mp last]
        exact uses.fails
  · intro transition member array panics isDrop
    cases List.mem_append.mp member with
    | inl earlier =>
        obtain ⟨isGone, empty, given⟩ := told.dropped transition earlier array panics isDrop
        obtain ⟨isGone', same⟩ := uses.gone array isGone
        exact ⟨isGone', same.trans empty, given.imp_right (uses.freed array)⟩
    | inr last =>
        rw [List.mem_singleton.mp last] at isDrop
        exact uses.dropped array panics isDrop

/-- Every run keeps to that, by induction on the run. -/
theorem Lifetimes.told_of_run (initial : (lifetimes α elementSize).init start)
    (run : (lifetimes α elementSize).Run start trace l)
    : ∃ a, Lifetimes.Told elementSize trace l a := by
  refine run.induct (I := fun trace l => ∃ a, Lifetimes.Told elementSize trace l a) ?_ ?_
  · obtain ⟨a, sound, -⟩ := Lifetimes.Sound.initial initial
    exact ⟨a, sound, by simp, by simp⟩
  · intro trace l label l' _ told step
    obtain ⟨a, told⟩ := told
    exact told.step step

/-- No run makes or loses a value. -/
theorem Lifetimes.balanced_of_run (initial : (lifetimes α elementSize).init start)
    (run : (lifetimes α elementSize).Run start trace l)
    : l.arrays.owned + (l.arrays.memory.dropped : Multiset α) + total handedBack trace
      = total putIn trace := by
  let Stocks (l : Lifetimes α) (stock : Multiset α) : Prop :=
    ∃ a : BoundedLists α, l.Sound elementSize a ∧ a.owned + (a.dropped : Multiset α) = stock
  have begins : Stocks start 0 := Lifetimes.Sound.initial initial
  have whole : ∃ after,
      Stocks l after ∧ after + total handedBack trace = 0 + total putIn trace := by
    refine run.balanced begins (fun transition _ => ?_)
    rintro _ ⟨a, sound, rfl⟩ step
    obtain ⟨a', uses⟩ := sound.step step
    exact ⟨_, ⟨a', uses.sound, rfl⟩, uses.balanced⟩
  obtain ⟨_, ⟨a, sound, rfl⟩, balance⟩ := whole
  rw [sound.related.owned_eq, ← sound.related.dropped, balance, zero_add]

/-- In every run of their owners, arrays are used and dropped safely, whichever destructors panic.
A use fails only in a check of the operation's own or in the destructor of an element: none touches
an allocation that has been given back, none gives one back twice, with another layout or with
values in it. Only allocations of dropped arrays have been given back. An array whose drop has
returned holds nothing, and its allocation has been given back, if its elements have a size. And
every value that has been put in is in one array, or has been handed back or dropped once.
-/
theorem array_lifetimes_exact (initial : (lifetimes α elementSize).init start)
    (run : (lifetimes α elementSize).Run start trace l)
    : (∀ transition ∈ trace, FailsItself transition.label)
      ∧ (l.freed.Nodup ∧ ∀ array ∈ l.freed, array ∈ l.gone)
      ∧ (∀ transition ∈ trace,
          ∀ array panics,
            transition.label = (.drop array panics, .ok .unit)
            → l.arrays.items array = [] ∧ (elementSize = 0 ∨ array ∈ l.freed))
      ∧ l.arrays.owned + (l.arrays.memory.dropped : Multiset α) + total handedBack trace
        = total putIn trace := by
  obtain ⟨a, told⟩ := Lifetimes.told_of_run initial run
  have related := told.sound.related
  refine ⟨told.fails, ⟨told.sound.nodup, fun array isFreed => (told.sound.freed array isFreed).1⟩,
    ?_, Lifetimes.balanced_of_run initial run⟩
  intro transition member array panics isDrop
  obtain ⟨isGone, empty, given⟩ := told.dropped transition member array panics isDrop
  have present : array < l.arrays.memory.count := related.count ▸ told.sound.gone array isGone
  exact ⟨(related.items_eq present).trans empty, given⟩

-----------------------------------------------------------------------------------------
-- A run
-----------------------------------------------------------------------------------------

namespace Lifetimes

instance (l : Lifetimes α) : (use : Use α) → Decidable (l.Owns use)
  | .operation operation =>
      inferInstanceAs
        (Decidable
          (operation.Valid l.arrays.memory.count ∧ ∀ array ∈ operation.uses, array ∉ l.gone))
  | .drop self _ => inferInstanceAs (Decidable (self < l.arrays.memory.count ∧ self ∉ l.gone))

/-- Before the first array is made. -/
def none : Lifetimes α := { arrays := .none, gone := [], freed := [] }

/-- Does what an owner does with arrays of its own. -/
def play (elementSize : Nat)
    : Lifetimes α → Use α → Option ((Use α × Except UseFailure (Answer α)) × Lifetimes α) :=
  TransitionSystem.perform Owns (use elementSize)

theorem step_of_play {use : Use α} {label} (played : l.play elementSize use = some (label, l'))
    : (lifetimes α elementSize).step l label l' := by
  have performed := TransitionSystem.of_perform played
  exact performed.2

end Lifetimes

/-- An insertion and a removal shift the values behind them, and values are split off, go back to
the front, and are split off again. Three arrays are dropped: the one with values and the empty one
give their allocations back; the last one leaks a value and its allocation, since a destructor
panics.
-/
theorem array_lifetimes_exact_dropped
    : ∃ trace l,
        (lifetimes Nat 8).Run .none trace l
        ∧ l.gone = [0, 1, 2]
        ∧ l.freed = [1, 2]
        ∧ l.arrays.memory.dropped = [6, 8, 9]
        ∧ l.arrays.owned + (l.arrays.memory.dropped : Multiset Nat) + total handedBack trace
          = total putIn trace := by
  have initial : (lifetimes Nat 8).init .none := ⟨rfl, rfl, rfl, rfl⟩
  have plays
      : (TransitionSystem.replay (Lifetimes.play 8) .none
          [.operation (.withCapacity 4), .operation (.push 0 7), .operation (.push 0 9),
            .operation (.insert 0 0 5), .operation (.insert 0 1 6), .operation (.remove 0 0),
            .operation (.splitOff 0 1), .operation (.push 1 8), .operation (.prependFrom 0 1),
            .operation (.splitOff 0 3), .drop 2 (fun _ => false), .drop 1 (fun _ => false),
            .drop 0 (fun offset => offset == 1)]).map
          (fun (_, l) => (l.gone, l.freed, l.arrays.memory.dropped))
        = some ([0, 1, 2], [1, 2], [6, 8, 9]) := by
    decide +kernel
  simp only [Option.map_eq_some_iff, Prod.exists, Prod.mk.injEq] at plays
  obtain ⟨trace, l, used, gone, freed, dropped⟩ := plays
  have run : (lifetimes Nat 8).Run .none trace l :=
    .of_replay (fun _ _ _ _ played => Lifetimes.step_of_play played) used
  exact ⟨trace, l, run, gone, freed, dropped, (array_lifetimes_exact initial run).2.2.2⟩

end BLink
