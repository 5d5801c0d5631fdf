import BLink.Slots.BoundedLists

/-! Each method on raw slots does what its operation on lists does.
The relation says that every array holds exactly the items of its list. A method changes the
slots and the length of at most two arrays, and a check that panics comes before any change.
-/

namespace BLink

open Library

variable {α : Type} {elementSize self other : Nat} {items : List α} {limit : Nat} {s s' : Arrays α}
  {a a' : BoundedLists α}

-----------------------------------------------------------------------------------------
-- Arrays and their lists
-----------------------------------------------------------------------------------------

/-- The array holds exactly the items, in its first slots. -/
structure Arrays.Holds (s : Arrays α) (array : Nat) (items : List α) (limit : Nat) : Prop where
  contains : s.memory.Contains array items
  len : s.len array = items.length
  cap : s.cap array = limit
  size : s.memory.size array = limit
  fits : items.length ≤ limit

/-- The array is as it was. -/
structure Arrays.Untouched (s s' : Arrays α) (array : Nat) : Prop where
  value : ∀ offset, s'.memory.value? array offset = s.memory.value? array offset
  len : s'.len array = s.len array
  cap : s'.cap array = s.cap array
  size : s'.memory.size array = s.memory.size array

theorem Arrays.Untouched.refl {array : Nat} : s.Untouched s array :=
  ⟨fun _ => rfl, rfl, rfl, rfl⟩

theorem Arrays.Untouched.trans {s'' : Arrays α} {array : Nat} (first : s.Untouched s' array)
    (second : s'.Untouched s'' array)
    : s.Untouched s'' array :=
  {
    value := fun offset => (second.value offset).trans (first.value offset)
    len := second.len.trans first.len
    cap := second.cap.trans first.cap
    size := second.size.trans first.size
  }

theorem Arrays.Holds.of_untouched (holds : s.Holds self items limit)
    (untouched : s.Untouched s' self)
    : s'.Holds self items limit :=
  {
    contains := fun offset => (untouched.value offset).trans (holds.contains offset)
    len := untouched.len.trans holds.len
    cap := untouched.cap.trans holds.cap
    size := untouched.size.trans holds.size
    fits := holds.fits
  }

/-- The arrays hold the items of the lists, their layouts are valid, and the same values have
been dropped.
-/
structure Related (elementSize : Nat) (s : Arrays α) (a : BoundedLists α) : Prop where
  count : a.count = s.memory.count
  dropped : a.dropped = s.memory.dropped
  holds : ∀ self, self < a.count → s.Holds self (a.items self) (a.cap self)
  positive : ∀ self, self < a.count → 0 < a.cap self
  layout : ∀ self, self < a.count → a.cap self * elementSize < Arrays.layoutBound

/-- One array is changed. -/
theorem Related.set (related : Related elementSize s a)
    (count : s'.memory.count = s.memory.count)
    (dropped : s'.memory.dropped = s.memory.dropped)
    (holds : s'.Holds self items (a.cap self))
    (untouched : ∀ array, array ≠ self → s.Untouched s' array)
    : Related elementSize s' (a.set self items) := by
  refine {
    count := related.count.trans count.symm
    dropped := related.dropped.trans dropped.symm
    holds := fun array present => ?_
    positive := related.positive
    layout := related.layout
  }
  by_cases same : array = self
  · subst same
    simpa [BoundedLists.set] using holds
  · simp only [BoundedLists.set, Function.update_of_ne same]
    exact (related.holds array present).of_untouched (untouched array same)

/-- Two arrays are changed. -/
theorem Related.set₂ {others : List α} (related : Related elementSize s a)
    (count : s'.memory.count = s.memory.count)
    (dropped : s'.memory.dropped = s.memory.dropped)
    (apart : self ≠ other)
    (holds : s'.Holds self items (a.cap self))
    (holdsOther : s'.Holds other others (a.cap other))
    (untouched : ∀ array, array ≠ self → array ≠ other → s.Untouched s' array)
    : Related elementSize s' ((a.set self items).set other others) := by
  refine {
    count := related.count.trans count.symm
    dropped := related.dropped.trans dropped.symm
    holds := fun array present => ?_
    positive := related.positive
    layout := related.layout
  }
  by_cases isOther : array = other
  · subst isOther
    simpa [BoundedLists.set] using holdsOther
  · simp only [BoundedLists.set, Function.update_of_ne isOther]
    by_cases same : array = self
    · subst same
      simpa using holds
    · simp only [Function.update_of_ne same]
      exact (related.holds array present).of_untouched (untouched array same isOther)

/-- The method returns what the operation on lists returns and leaves related states behind;
when a check of its own panics it has changed nothing.
-/
structure Agrees (elementSize : Nat) (s : Arrays α)
    (outcome : Except Failure (Answer α) × Arrays α)
    (expected : Except Failure (Answer α) × BoundedLists α)
    : Prop where
  result : outcome.1 = expected.1
  related : Related elementSize outcome.2 expected.2
  unchanged : ∀ panic, outcome.1 = .error (.panic panic) → outcome.2 = s

/-- The method returns. -/
theorem Related.returns {answer : Answer α} (related : Related elementSize s' a')
    : Agrees elementSize s (.ok answer, s') (.ok answer, a') :=
  ⟨rfl, related, fun _ panics => nomatch panics⟩

/-- A check panics. -/
theorem Related.panics {failure : Failure} (related : Related elementSize s a)
    : Agrees elementSize s (.error failure, s) (.error failure, a) :=
  ⟨rfl, related, fun _ _ => rfl⟩

-----------------------------------------------------------------------------------------
-- Methods on one array
-----------------------------------------------------------------------------------------

theorem push_agrees (related : Related elementSize s a) (present : self < a.count) (value : α)
    : Agrees elementSize s ((Operation.push self value).run elementSize s)
        (a.perform elementSize (.push self value)) := by
  have holds := related.holds self present
  show Agrees elementSize s ((Arrays.push self value >>= fun _ => pure .unit) s)
    (a.commit self (Array.push (a.cap self) (a.items self) value))
  by_cases room : (a.items self).length < a.cap self
  · have write
        : s.memory.write ⟨self, (a.items self).length⟩ value
          = .ok (s.memory.setSlot ⟨self, (a.items self).length⟩ (.holds value)) := by
      apply Memory.write_ok
      · exact holds.size ▸ room
      · exact holds.contains.eq_none (Nat.le_refl _)
    have runs
        : Arrays.push self value s
          = (.ok (), {
              s with
              memory := s.memory.setSlot ⟨self, (a.items self).length⟩ (.holds value)
              len := Function.update s.len self ((a.items self).length + 1)
            }) := by
      simp only [Arrays.push, Method.getLen_bind, Method.getCap_bind, Method.assert_bind,
        holds.len, holds.cap, if_pos room]
      exact Method.access_bind write
    rw [Method.bind_ok runs, Array.push_ok _ _ room]
    refine Related.returns (related.set rfl rfl ?_ ?_)
    · exact {
        contains := holds.contains.put_last value
        len := by simp
        cap := holds.cap
        size := holds.size
        fits := by simpa using Nat.succ_le_of_lt room
      }
    · exact fun array differs => {
        value := fun offset => Memory.value?_setSlot_of_ne differs
        len := Function.update_of_ne differs _ _
        cap := rfl
        size := rfl
      }
  · have fails
        : Arrays.push self value s
          = (.error (.panic (.assertion "Array capacity exceeded")), s) := by
      simp only [Arrays.push, Method.getLen_bind, Method.getCap_bind, Method.assert_bind,
        holds.len, holds.cap, if_neg room]
    rw [Method.bind_error fails, Array.push, if_neg room]
    exact related.panics

theorem pop_agrees (related : Related elementSize s a) (present : self < a.count)
    : Agrees elementSize s ((Operation.pop self).run elementSize s)
        (a.perform elementSize (.pop self)) := by
  have holds := related.holds self present
  show Agrees elementSize s ((Arrays.pop self >>= fun value => pure (.popped value)) s) _
  cases (a.items self).eq_nil_or_concat' with
  | inl empty =>
      have runs : Arrays.pop self s = (.ok none, s) := by
        simp only [Arrays.pop, Method.getLen_bind, holds.len, empty, List.length_nil, if_true,
          Method.pure_run]
      have expected : a.perform elementSize (.pop self) = (.ok (.popped none), a) := by
        simp only [BoundedLists.perform, empty, Array.pop, List.getLast?_nil, Option.map_none]
      rw [Method.bind_ok runs, expected]
      exact related.returns
  | inr nonempty =>
      obtain ⟨front, value, items⟩ := nonempty
      rw [items] at holds
      have isLast : (front ++ [value]).length - 1 = front.length := by simp
      have read
          : s.memory.read ⟨self, front.length⟩
            = .ok (value, s.memory.setSlot ⟨self, front.length⟩ (.moved value)) := by
        apply Memory.read_ok
        · show front.length < s.memory.size self
          rw [holds.size]
          exact Nat.lt_of_lt_of_le (by simp) holds.fits
        · rw [holds.contains]
          simp
      have runs
          : Arrays.pop self s
            = (.ok (some value), {
                s with
                memory := s.memory.setSlot ⟨self, front.length⟩ (.moved value)
                len := Function.update s.len self front.length
              }) := by
        simp only [Arrays.pop, Method.getLen_bind, holds.len]
        rw [if_neg (by simp)]
        simp only [Method.setLen_bind, Method.getLen_bind, isLast, Function.update_self]
        exact Method.read_bind read
      have expected
          : a.perform elementSize (.pop self) = (.ok (.popped (some value)), a.set self front) := by
        simp only [BoundedLists.perform, items, Array.pop_append]
      rw [Method.bind_ok runs, expected]
      refine Related.returns (related.set rfl rfl ?_ ?_)
      · exact {
          contains := holds.contains.take_last
          len := by simp
          cap := holds.cap
          size := holds.size
          fits := Nat.le_trans (by simp) holds.fits
        }
      · exact fun array differs => {
          value := fun offset => Memory.value?_setSlot_of_ne differs
          len := Function.update_of_ne differs _ _
          cap := rfl
          size := rfl
        }

theorem insert_agrees (related : Related elementSize s a) (present : self < a.count)
    (index : Nat) (value : α)
    : Agrees elementSize s ((Operation.insert self index value).run elementSize s)
        (a.perform elementSize (.insert self index value)) := by
  have holds := related.holds self present
  show Agrees elementSize s ((Arrays.insert self index value >>= fun _ => pure .unit) s)
    (a.commit self (Array.insert (a.cap self) (a.items self) index value))
  by_cases bound : index ≤ (a.items self).length
  · by_cases room : (a.items self).length < a.cap self
    · have inStorage : (a.items self).length < s.memory.size self := by rwa [holds.size]
      have shift := holds.contains.copy_right bound (Nat.le_succ index)
        (by omega : index + 1 + ((a.items self).length - index) ≤ s.memory.size self)
      have write := Memory.write_ok (p := ⟨self, index⟩) value
        (m := {
          s.memory with
          slot := s.memory.copied ⟨self, index⟩ ⟨self, index + 1⟩ ((a.items self).length - index)
        })
        (Nat.lt_of_le_of_lt bound inStorage) (holds.contains.gap bound)
      have runs
          : Arrays.insert self index value s
            = (.ok (), {
                s with
                memory := Memory.setSlot
                  { s.memory with
                    slot := s.memory.copied ⟨self, index⟩ ⟨self, index + 1⟩
                      ((a.items self).length - index) }
                  ⟨self, index⟩ (.holds value)
                len := Function.update s.len self ((a.items self).length + 1)
              }) := by
        simp only [Arrays.insert, Method.getLen_bind, Method.getCap_bind, Method.assert_bind,
          holds.len, holds.cap, if_pos room, if_pos bound]
        rw [Method.access_bind shift]
        exact Method.access_bind write
      have expected
          : Array.insert (a.cap self) (a.items self) index value
            = .ok ((a.items self).insertIdx index value) := by
        simp only [Array.insert, bound, room, not_true_eq_false, if_false]
      rw [Method.bind_ok runs, expected]
      refine Related.returns (related.set rfl rfl ?_ ?_)
      · exact {
          contains := holds.contains.put_at bound value
          len := by simp [List.length_insertIdx, bound]
          cap := holds.cap
          size := holds.size
          fits := by simpa [List.length_insertIdx, bound] using Nat.succ_le_of_lt room
        }
      · exact fun array differs => {
          value := fun offset =>
            (Memory.value?_setSlot_of_ne differs).trans
              (Memory.value?_copied_of_ne differs differs)
          len := Function.update_of_ne differs _ _
          cap := rfl
          size := rfl
        }
    · have fails
          : Arrays.insert self index value s
            = (.error (.panic (.assertion "Array capacity exceeded")), s) := by
        simp only [Arrays.insert, Method.getLen_bind, Method.getCap_bind, Method.assert_bind,
          holds.len, holds.cap, if_neg room, if_pos bound]
      rw [Method.bind_error fails, Array.insert, if_neg (not_not.mpr bound), if_pos room]
      exact related.panics
  · have fails
        : Arrays.insert self index value s
          = (.error (.panic (.assertion "index out of bounds")), s) := by
      simp only [Arrays.insert, Method.getLen_bind, Method.assert_bind, holds.len, if_neg bound]
    rw [Method.bind_error fails, Array.insert, if_pos bound]
    exact related.panics

theorem remove_agrees (related : Related elementSize s a) (present : self < a.count)
    (index : Nat)
    : Agrees elementSize s ((Operation.remove self index).run elementSize s)
        (a.perform elementSize (.remove self index)) := by
  have holds := related.holds self present
  show Agrees elementSize s ((Arrays.remove self index >>= fun value => pure (.value value)) s) _
  by_cases bound : index < (a.items self).length
  · have inStorage : (a.items self).length ≤ s.memory.size self := holds.size ▸ holds.fits
    have item : (a.items self)[index]? = some (a.items self)[index] :=
      List.getElem?_eq_getElem bound
    have read
        : s.memory.read ⟨self, index⟩
          = .ok ((a.items self)[index],
              s.memory.setSlot ⟨self, index⟩ (.moved (a.items self)[index])) := by
      apply Memory.read_ok (Nat.lt_of_lt_of_le bound inStorage)
      rw [holds.contains, item]
    have shift := holds.contains.copy_left (a.items self)[index] bound inStorage
    have runs
        : Arrays.remove self index s
          = (.ok (a.items self)[index], {
              s with
              memory :=
                let memory := s.memory.setSlot ⟨self, index⟩ (.moved (a.items self)[index])
                { memory with
                  slot := memory.copied ⟨self, index + 1⟩ ⟨self, index⟩
                    ((a.items self).length - index - 1) }
              len := Function.update s.len self ((a.items self).length - 1)
            }) := by
      simp only [Arrays.remove, Method.getLen_bind, Method.assert_bind, holds.len, if_pos bound]
      rw [Method.read_bind read]
      exact Method.access_bind shift
    have expected
        : a.perform elementSize (.remove self index)
          = (.ok (.value (a.items self)[index]), a.set self ((a.items self).eraseIdx index)) := by
      simp only [BoundedLists.perform, Array.remove, item]
    rw [Method.bind_ok runs, expected]
    refine Related.returns (related.set rfl rfl ?_ ?_)
    · exact {
        contains := holds.contains.take_at bound
        len := by simp [List.length_eraseIdx, bound]
        cap := holds.cap
        size := holds.size
        fits := Nat.le_trans (List.length_eraseIdx_le _ _) holds.fits
      }
    · exact fun array differs => {
        value := fun offset =>
          (Memory.value?_copied_of_ne differs differs).trans
            (Memory.value?_setSlot_of_ne differs)
        len := Function.update_of_ne differs _ _
        cap := rfl
        size := rfl
      }
  · have fails
        : Arrays.remove self index s
          = (.error (.panic (.assertion "index out of bounds")), s) := by
      simp only [Arrays.remove, Method.getLen_bind, Method.assert_bind, holds.len, if_neg bound]
    have expected
        : a.perform elementSize (.remove self index)
          = (.error (.panic (.assertion "index out of bounds")), a) := by
      simp only [BoundedLists.perform, Array.remove,
        List.getElem?_eq_none (Nat.le_of_not_lt bound)]
    rw [Method.bind_error fails, expected]
    exact related.panics

theorem asSlice_agrees (related : Related elementSize s a) (present : self < a.count)
    : Agrees elementSize s ((Operation.asSlice self).run elementSize s)
        (a.perform elementSize (.asSlice self)) := by
  have holds := related.holds self present
  show Agrees elementSize s ((Arrays.asSlice self >>= fun items => pure (.slice items)) s) _
  have slice := Memory.slice_ok holds.contains (holds.size ▸ holds.fits)
  have runs : Arrays.asSlice self s = (.ok (a.items self), s) := by
    simp only [Arrays.asSlice, Method.getLen_bind, holds.len, Method.slice, slice]
  rw [Method.bind_ok runs]
  exact related.returns

-----------------------------------------------------------------------------------------
-- New arrays
-----------------------------------------------------------------------------------------

/-- One more array, which holds the items. -/
theorem Related.add (related : Related elementSize s a) (sameCount : a'.count = a.count)
    (sameCap : a'.cap = a.cap) (sameDropped : a'.dropped = a.dropped)
    (count : s'.memory.count = s.memory.count + 1)
    (dropped : s'.memory.dropped = s.memory.dropped)
    (positive : 0 < limit)
    (layout : limit * elementSize < Arrays.layoutBound)
    (holds : s'.Holds a.count items limit)
    (others : ∀ array, array < a.count → s'.Holds array (a'.items array) (a.cap array))
    : Related elementSize s' (a'.add limit items) := by
  refine {
    count := (congrArg (· + 1) (sameCount.trans related.count)).trans count.symm
    dropped := (sameDropped.trans related.dropped).trans dropped.symm
    holds := fun array present => ?_
    positive := fun array present => ?_
    layout := fun array present => ?_
  }
  all_goals
    simp only [BoundedLists.add, sameCount, sameCap] at present ⊢
    by_cases new : array = a.count
    · subst new
      simpa
    simp only [Function.update_of_ne new]
  · exact others array (by omega)
  · exact related.positive array (by omega)
  · exact related.layout array (by omega)

/-- The arrays after one more has been made. -/
def Arrays.created (s : Arrays α) (limit : Nat) : Arrays α :=
  {
    memory := (s.memory.alloc limit).2
    len := Function.update s.len s.memory.count 0
    cap := Function.update s.cap s.memory.count limit
  }

/-- `with_capacity` makes an empty array. -/
theorem withCapacity_run (positive : limit > 0) (layout : limit * elementSize < Arrays.layoutBound)
    : Arrays.withCapacity elementSize limit s = (.ok s.memory.count, s.created limit) := by
  simp only [Arrays.withCapacity, Method.assert_bind, Method.expectIf_bind, if_pos positive,
    if_pos layout]
  rfl

theorem Arrays.created_holds : (s.created limit).Holds s.memory.count [] limit :=
  {
    contains := fun offset => by simp [created, Memory.alloc, Memory.value?, Slot.value?]
    len := Function.update_self _ _ _
    cap := Function.update_self _ _ _
    size := if_pos rfl
    fits := Nat.zero_le limit
  }

/-- The other arrays stay as they are. -/
theorem Arrays.created_untouched {array : Nat} (present : array < s.memory.count)
    : s.Untouched (s.created limit) array := by
  have old : array ≠ s.memory.count := Nat.ne_of_lt present
  exact {
    value := fun offset => by simp [created, Memory.alloc, Memory.value?, old]
    len := Function.update_of_ne old _ _
    cap := Function.update_of_ne old _ _
    size := if_neg old
  }

theorem withCapacity_agrees (related : Related elementSize s a) (limit : Nat)
    : Agrees elementSize s ((Operation.withCapacity limit).run elementSize s)
        (a.perform elementSize (.withCapacity limit)) := by
  show Agrees elementSize s
    ((Arrays.withCapacity elementSize limit >>= fun ptr => pure (.array ptr)) s) _
  by_cases positive : limit > 0
  · by_cases layout : limit * elementSize < Arrays.layoutBound
    · have expected
          : a.perform elementSize (.withCapacity limit) = (.ok (.array a.count), a.add limit []) := by
        simp only [BoundedLists.perform, positive, layout, not_true_eq_false, if_false, if_true]
      rw [Method.bind_ok (withCapacity_run positive layout), expected, Method.pure_run,
        ← related.count]
      refine Related.returns (related.add rfl rfl rfl rfl rfl positive layout ?_ ?_)
      · rw [related.count]
        exact Arrays.created_holds
      · intro array present
        refine (related.holds array present).of_untouched (Arrays.created_untouched ?_)
        exact related.count ▸ present
    · have fails
          : Arrays.withCapacity elementSize limit s
            = (.error (.panic (.expected "Array capacity overflow")), s) := by
        simp only [Arrays.withCapacity, Method.assert_bind, Method.expectIf_bind, if_pos positive,
          if_neg layout]
      have expected
          : a.perform elementSize (.withCapacity limit)
            = (.error (.panic (.expected "Array capacity overflow")), a) := by
        simp only [BoundedLists.perform, positive, layout, not_true_eq_false, if_false]
      rw [Method.bind_error fails, expected]
      exact related.panics
  · have fails
        : Arrays.withCapacity elementSize limit s
          = (.error (.panic (.assertion "capacity must be greater than zero")), s) := by
      simp only [Arrays.withCapacity, Method.assert_bind, if_neg positive]
    have expected
        : a.perform elementSize (.withCapacity limit)
          = (.error (.panic (.assertion "capacity must be greater than zero")), a) := by
      simp only [BoundedLists.perform, positive, not_false_eq_true, if_true]
    rw [Method.bind_error fails, expected]
    exact related.panics

theorem splitOff_agrees (related : Related elementSize s a) (present : self < a.count)
    (index : Nat)
    : Agrees elementSize s ((Operation.splitOff self index).run elementSize s)
        (a.perform elementSize (.splitOff self index)) := by
  have holds := related.holds self present
  have allocated : self < s.memory.count := related.count ▸ present
  have apart : s.memory.count ≠ self := Nat.ne_of_gt allocated
  show Agrees elementSize s
    ((Arrays.splitOff elementSize self index >>= fun ptr => pure (.array ptr)) s) _
  by_cases bound : index ≤ (a.items self).length
  · let s₁ := s.created (a.cap self)
    let moved := (a.items self).length - index
    have holds₁ : s₁.Holds self (a.items self) (a.cap self) :=
      holds.of_untouched (Arrays.created_untouched allocated)
    have empty₁ : s₁.Holds s.memory.count [] (a.cap self) := Arrays.created_holds
    have transfer := holds₁.contains.transfer 0 empty₁.contains apart.symm bound
      (holds₁.size ▸ holds₁.fits) (Nat.le_refl 0)
      (by rw [empty₁.size]; have fits := holds.fits; omega)
    have runs
        : Arrays.splitOff elementSize self index s
          = (.ok s.memory.count, {
              memory := {
                s₁.memory with
                slot := s₁.memory.copied ⟨self, index⟩ ⟨s.memory.count, 0⟩ moved
              }
              len := Function.update (Function.update s₁.len s.memory.count moved) self index
              cap := s₁.cap
            }) := by
      simp only [Arrays.splitOff, Method.getLen_bind, Method.getCap_bind, Method.assert_bind,
        holds.len, holds.cap, if_pos bound]
      rw [Method.bind_ok
        (withCapacity_run (related.positive self present) (related.layout self present))]
      rw [Method.access_bind transfer]
      rfl
    have expected
        : a.perform elementSize (.splitOff self index)
          = (.ok (.array a.count),
              (a.set self ((a.items self).take index)).add (a.cap self)
                ((a.items self).drop index)) := by
      simp only [BoundedLists.perform, Array.splitOff, if_pos bound]
    have named : (Answer.array s.memory.count : Answer α) = .array a.count := by
      rw [related.count]
    rw [Method.bind_ok runs, expected, Method.pure_run, named]
    refine Related.returns
      (related.add rfl rfl rfl rfl rfl (related.positive self present) (related.layout self present)
        ?_ ?_)
    · rw [related.count]
      exact {
        contains := holds₁.contains.back empty₁.contains apart
        len := by simp [Function.update_of_ne apart, moved]
        cap := empty₁.cap
        size := empty₁.size
        fits := Nat.le_trans (by simp) holds.fits
      }
    · intro array there
      by_cases same : array = self
      · subst same
        simp only [BoundedLists.set, Function.update_self]
        exact {
          contains := holds₁.contains.front apart
          len := by simp [bound]
          cap := holds₁.cap
          size := holds₁.size
          fits := Nat.le_trans (List.length_take_le' _ _) holds.fits
        }
      · have old : array < s.memory.count := related.count ▸ there
        simp only [BoundedLists.set, Function.update_of_ne same]
        have still : s₁.Holds array (a.items array) (a.cap array) :=
          (related.holds array there).of_untouched (Arrays.created_untouched old)
        refine still.of_untouched {
          value := fun offset => Memory.value?_copied_of_ne same (Nat.ne_of_lt old)
          len := by simp only [Function.update_of_ne same, Function.update_of_ne (Nat.ne_of_lt old)]
          cap := rfl
          size := rfl
        }
  · have fails
        : Arrays.splitOff elementSize self index s
          = (.error (.panic (.assertion "index out of bounds")), s) := by
      simp only [Arrays.splitOff, Method.getLen_bind, Method.assert_bind, holds.len, if_neg bound]
    have expected
        : a.perform elementSize (.splitOff self index)
          = (.error (.panic (.assertion "index out of bounds")), a) := by
      simp only [BoundedLists.perform, Array.splitOff, if_neg bound]
    rw [Method.bind_error fails, expected]
    exact related.panics

-----------------------------------------------------------------------------------------
-- Methods on two arrays
-----------------------------------------------------------------------------------------

/-- The array has taken over all items of the other one. -/
structure Arrays.Absorbs (s s' : Arrays α) (array other : Nat) (items : List α) (limit limitOther : Nat)
    : Prop where
  count : s'.memory.count = s.memory.count
  dropped : s'.memory.dropped = s.memory.dropped
  holds : s'.Holds array items limit
  holdsOther : s'.Holds other [] limitOther
  untouched : ∀ third, third ≠ array → third ≠ other → s.Untouched s' third

/-- `append_from` and `prepend_from` make the same checks, do nothing where there is nothing to
move, and differ in how they move.
-/
theorem absorb_agrees {method moves : Method α Unit} {joined : List α}
    (related : Related elementSize s a) (present : self < a.count)
    (presentOther : other < a.count) (apart : self ≠ other)
    (nothing : a.items other = [] → joined = a.items self)
    (runs
      : method s
        = if s.len self + s.len other < Arrays.usizeBound then
            if s.len self + s.len other ≤ s.cap self then
              (if s.len other = 0 then pure () else moves) s
            else (.error (.panic (.assertion "Array capacity exceeded")), s)
          else (.error (.panic (.expected "Array length overflow")), s))
    (absorbs
      : (a.items self).length + (a.items other).length ≤ a.cap self
        → ∃ s', moves s = (.ok (), s') ∧ s.Absorbs s' self other joined (a.cap self) (a.cap other))
    : Agrees elementSize s ((method >>= fun _ => pure .unit) s)
        (a.absorb self other
          (if (a.items self).length + (a.items other).length ≤ a.cap self then .ok joined
          else .error (.assertion "Array capacity exceeded"))) := by
  have holds := related.holds self present
  have holdsOther := related.holds other presentOther
  rw [holds.len, holdsOther.len, holds.cap] at runs
  unfold BoundedLists.absorb
  by_cases noOverflow
    : (a.items self).length + (a.items other).length < Arrays.usizeBound
  · rw [if_pos noOverflow] at runs ⊢
    by_cases room : (a.items self).length + (a.items other).length ≤ a.cap self
    · rw [if_pos room] at runs ⊢
      by_cases empty : (a.items other).length = 0
      · rw [if_pos empty] at runs
        have nil := List.eq_nil_of_length_eq_zero empty
        rw [Method.bind_ok runs]
        refine Related.returns (related.set₂ rfl rfl apart ?_ ?_ (fun array _ _ => .refl))
        · rwa [nothing nil]
        · rwa [← nil]
      · rw [if_neg empty] at runs
        obtain ⟨s', moved, absorbed⟩ := absorbs room
        rw [Method.bind_ok (runs.trans moved)]
        exact Related.returns (related.set₂ absorbed.count absorbed.dropped apart absorbed.holds
          absorbed.holdsOther absorbed.untouched)
    · rw [if_neg room] at runs ⊢
      rw [Method.bind_error runs]
      exact related.panics
  · rw [if_neg noOverflow] at runs ⊢
    rw [Method.bind_error runs]
    exact related.panics

theorem appendFrom_agrees (related : Related elementSize s a) (present : self < a.count)
    (presentOther : other < a.count) (apart : self ≠ other)
    : Agrees elementSize s ((Operation.appendFrom self other).run elementSize s)
        (a.perform elementSize (.appendFrom self other)) := by
  have holds := related.holds self present
  have holdsOther := related.holds other presentOther
  apply absorb_agrees related present presentOther apart
    (fun nil => by rw [nil, List.append_nil])
  · simp only [Arrays.appendFrom, Method.getLen_bind, Method.getCap_bind, Method.assert_bind,
      Method.expectIf_bind]
    rfl
  · intro room
    have transfer := holdsOther.contains.transfer (a.items self).length holds.contains
      apart.symm (Nat.zero_le _) (holdsOther.size ▸ holdsOther.fits) (Nat.le_refl _)
      (holds.size ▸ room)
    simp only [Nat.sub_zero] at transfer
    rw [holds.len, holdsOther.len, Method.access_bind transfer]
    exact ⟨_, rfl, {
      count := rfl
      dropped := rfl
      holds := {
        contains := holds.contains.append holdsOther.contains apart.symm
        len := by simp [Function.update_of_ne apart]
        cap := holds.cap
        size := holds.size
        fits := by simpa using room
      }
      holdsOther := {
        contains := holdsOther.contains.emptied apart.symm
        len := Function.update_self _ _ _
        cap := holdsOther.cap
        size := holdsOther.size
        fits := Nat.zero_le _
      }
      untouched := fun array notSelf notOther => {
        value := fun offset => Memory.value?_copied_of_ne notOther notSelf
        len := by simp [Function.update_of_ne notOther, Function.update_of_ne notSelf]
        cap := rfl
        size := rfl
      }
    }⟩

theorem prependFrom_agrees (related : Related elementSize s a) (present : self < a.count)
    (presentOther : other < a.count) (apart : self ≠ other)
    : Agrees elementSize s ((Operation.prependFrom self other).run elementSize s)
        (a.perform elementSize (.prependFrom self other)) := by
  have holds := related.holds self present
  have holdsOther := related.holds other presentOther
  apply absorb_agrees related present presentOther apart
    (fun nil => by rw [nil, List.nil_append])
  · simp only [Arrays.prependFrom, Method.getLen_bind, Method.getCap_bind, Method.assert_bind,
      Method.expectIf_bind]
    rfl
  · intro room
    have inStorage
        : (a.items self).length + (a.items other).length ≤ s.memory.size self := by
      rwa [holds.size]
    have shift := holds.contains.copy_right (Nat.zero_le _) (Nat.zero_le (a.items other).length)
      (by omega)
    have transfer := holds.contains.transfer_front holdsOther.contains apart.symm
      (holdsOther.size ▸ holdsOther.fits) (by omega)
    simp only [Nat.sub_zero] at shift
    rw [holds.len, holdsOther.len, Method.access_bind shift, Method.access_bind transfer]
    exact ⟨_, rfl, {
      count := rfl
      dropped := rfl
      holds := {
        contains := holds.contains.prepend holdsOther.contains apart.symm
        len := by simp [Function.update_of_ne apart, Nat.add_comm]
        cap := holds.cap
        size := holds.size
        fits := by simpa [Nat.add_comm] using room
      }
      holdsOther := {
        contains := Memory.Contains.emptied
          (fun offset =>
            (Memory.value?_copied_of_ne apart.symm apart.symm).trans (holdsOther.contains offset))
          apart.symm
        len := Function.update_self _ _ _
        cap := holdsOther.cap
        size := holdsOther.size
        fits := Nat.zero_le _
      }
      untouched := fun array notSelf notOther => {
        value := fun offset =>
          (Memory.value?_copied_of_ne notOther notSelf).trans
            (Memory.value?_copied_of_ne notSelf notSelf)
        len := by simp [Function.update_of_ne notOther, Function.update_of_ne notSelf]
        cap := rfl
        size := rfl
      }
    }⟩

-----------------------------------------------------------------------------------------
-- Clearing
-----------------------------------------------------------------------------------------

/-- The lost items of the array have been dropped from the last one on. -/
structure Arrays.Cleared (s s' : Arrays α) (array : Nat) (kept lost : List α) (limit : Nat)
    : Prop where
  count : s'.memory.count = s.memory.count
  dropped : s'.memory.dropped = s.memory.dropped ++ lost.reverse
  holds : s'.Holds array kept limit
  untouched : ∀ other, other ≠ array → s.Untouched s' other

/-- The array loses more items. -/
theorem Arrays.Cleared.trans {array : Nat} {s'' : Arrays α} {kept left lost more : List α}
    (first : s.Cleared s' array kept lost limit) (second : s'.Cleared s'' array left more limit)
    : s.Cleared s'' array left (more ++ lost) limit :=
  {
    count := second.count.trans first.count
    dropped := by
      rw [second.dropped, first.dropped, List.reverse_append, List.append_assoc]
    holds := second.holds
    untouched := fun other differs =>
      (first.untouched other differs).trans (second.untouched other differs)
  }

/-- One turn of the loop drops the last item. -/
theorem clearLoop_turn (panics : Nat → Bool) {front : List α} {value : α}
    (holds : s.Holds self (front ++ [value]) limit)
    : ∃ s',
        Arrays.clearLoop self panics (front.length + 1) s
          = (if panics front.length then Method.unwind
            else Arrays.clearLoop self panics front.length) s'
        ∧ s.Cleared s' self front [value] limit := by
  have length : (front ++ [value]).length = front.length + 1 := by simp
  have bound : front.length < s.memory.size self := by
    rw [holds.size]
    exact Nat.lt_of_lt_of_le (by simp) holds.fits
  have last : s.memory.value? self front.length = some value := by
    rw [holds.contains]
    simp
  have drop := Memory.dropInPlace_ok (p := ⟨self, front.length⟩) bound last
  let s₁ : Arrays α := {
    s with
    memory := {
      s.memory.setSlot ⟨self, front.length⟩ (.moved value) with
      dropped := s.memory.dropped ++ [value]
    }
    len := Function.update s.len self front.length
  }
  refine ⟨s₁, ?_, ?_⟩
  · rw [Arrays.clearLoop, Method.getLen_bind, holds.len, if_neg (by simp), length,
      Nat.add_sub_cancel, Method.setLen_bind, Method.getLen_bind]
    simp only [Function.update_self]
    exact Method.access_bind drop
  · exact {
      count := rfl
      dropped := rfl
      holds := {
        contains := holds.contains.take_last
        len := Function.update_self _ _ _
        cap := holds.cap
        size := holds.size
        fits := Nat.le_trans (by simp) holds.fits
      }
      untouched := fun other differs => {
        value := fun offset => Memory.value?_setSlot_of_ne differs
        len := Function.update_of_ne differs _ _
        cap := rfl
        size := rfl
      }
    }

/-- The loop drops items until a destructor panics, by induction on the items from the last one
on.
-/
theorem clearLoop_run (panics : Nat → Bool) (holds : s.Holds self items limit)
    : ∃ s',
        Arrays.clearLoop self panics items.length s
          = (if (List.range items.length).any panics then .error .destructor else .ok (), s')
        ∧ s.Cleared s' self (items.take (BoundedLists.leftBy panics items.length))
            (items.drop (BoundedLists.leftBy panics items.length)) limit := by
  induction items using List.reverseRecOn generalizing s with
  | nil => exact ⟨s, rfl, rfl, by simp, by simpa using holds, fun _ _ => .refl⟩
  | append_singleton front value ih =>
      obtain ⟨s₁, turn, cleared⟩ := clearLoop_turn panics holds
      rw [List.length_append, List.length_singleton, turn, BoundedLists.leftBy, List.range_succ,
        List.any_append]
      by_cases stops : panics front.length
      · refine ⟨s₁, ?_, ?_⟩
        · simp [stops, Method.unwind]
        · simpa [stops] using cleared
      · obtain ⟨s', rest, cleared'⟩ := ih cleared.holds
        have within := BoundedLists.leftBy_le panics front.length
        refine ⟨s', ?_, ?_⟩
        · simp [stops, rest]
        · rw [if_neg stops, List.take_append_of_le_length within,
            List.drop_append_of_le_length within]
          exact cleared.trans cleared'

theorem clear_agrees (related : Related elementSize s a) (present : self < a.count)
    (panics : Nat → Bool)
    : Agrees elementSize s ((Operation.clear self panics).run elementSize s)
        (a.perform elementSize (.clear self panics)) := by
  have holds := related.holds self present
  obtain ⟨s', runs, cleared⟩ := clearLoop_run panics holds
  have cleared_run
      : Arrays.clear self panics s
        = (if (List.range (a.items self).length).any panics then .error .destructor else .ok (),
            s') := by
    rw [Arrays.clear, Method.getLen_bind, holds.len, runs]
  have result
      : (Operation.clear self panics).run elementSize s
        = (if (List.range (a.items self).length).any panics then .error .destructor else .ok .unit,
            s') := by
    by_cases stops : (List.range (a.items self).length).any panics
    · rw [if_pos stops] at cleared_run ⊢
      exact Method.bind_error cleared_run
    · rw [if_neg stops] at cleared_run ⊢
      exact Method.bind_ok cleared_run
  have still : Related elementSize s'
      (a.perform elementSize (.clear self panics)).2 := by
    refine {
      count := related.count.trans cleared.count.symm
      dropped := by rw [cleared.dropped, ← related.dropped]; rfl
      holds := fun array there => ?_
      positive := related.positive
      layout := related.layout
    }
    by_cases same : array = self
    · subst same
      simpa [BoundedLists.perform, BoundedLists.set] using cleared.holds
    · simp only [BoundedLists.perform, BoundedLists.set, Function.update_of_ne same]
      exact (related.holds array there).of_untouched (cleared.untouched array same)
  refine ⟨?_, ?_, ?_⟩
  · rw [result]
    rfl
  · rw [result]
    exact still
  · intro panic failed
    rw [result] at failed
    simp only at failed
    split_ifs at failed
    cases failed

/-- Each method agrees with its operation on lists. -/
theorem Related.agrees (related : Related elementSize s a) (operation : Operation α)
    (valid : operation.Valid a.count)
    : Agrees elementSize s (operation.run elementSize s) (a.perform elementSize operation) := by
  cases operation with
  | withCapacity cap => exact withCapacity_agrees related cap
  | asSlice self => exact asSlice_agrees related valid
  | push self value => exact push_agrees related valid value
  | pop self => exact pop_agrees related valid
  | insert self index value => exact insert_agrees related valid index value
  | remove self index => exact remove_agrees related valid index
  | splitOff self index => exact splitOff_agrees related valid index
  | appendFrom self other => exact appendFrom_agrees related valid.1 valid.2.1 valid.2.2
  | prependFrom self other => exact prependFrom_agrees related valid.1 valid.2.1 valid.2.2
  | clear self panics => exact clear_agrees related valid panics

end BLink
