import BLink.Slots.BoundedLists
import Mathlib.Algebra.BigOperators.Intervals

/-! No operation on bounded lists loses a value or doubles one.
What has been put into the lists is in one of them, or has been handed back or dropped once.
-/

namespace BLink

open Library

variable {α : Type} {elementSize self : Nat} {a : BoundedLists α}

/-- The value that a successful operation has put into a list. -/
def Operation.put (result : Except Failure (Answer α)) : Operation α → Multiset α
  | .push _ value | .insert _ _ value =>
      match result with
      | .ok _ => {value}
      | .error _ => 0
  | _ => 0

/-- The value that an operation hands back. -/
def returned : Except Failure (Answer α) → Multiset α
  | .ok (.value value) => {value}
  | .ok (.popped (some value)) => {value}
  | _ => 0

/-- All values that a sequence of operations has put into lists. -/
def allPut (labels : List (Operation α × Except Failure (Answer α))) : Multiset α :=
  (labels.map (fun label => label.1.put label.2)).sum

/-- All values that it has handed back. -/
def allReturned (labels : List (Operation α × Except Failure (Answer α))) : Multiset α :=
  (labels.map (fun label => returned label.2)).sum

namespace BoundedLists

/-- The values in all lists. -/
def owned (a : BoundedLists α) : Multiset α :=
  ∑ array ∈ Finset.range a.count, (a.items array : Multiset α)

/-- What is owned is what one list has and what the others have. -/
theorem owned_eq (present : self < a.count)
    : a.owned
      = (a.items self : Multiset α)
        + ∑ array ∈ (Finset.range a.count).erase self, (a.items array : Multiset α) :=
  (Finset.add_sum_erase _ (fun array => (a.items array : Multiset α))
    (Finset.mem_range.mpr present)).symm

/-- A change of one list changes what is owned accordingly. -/
theorem owned_set (present : self < a.count) (items : List α)
    : (a.set self items).owned + (a.items self : Multiset α) = a.owned + (items : Multiset α) := by
  have others
      : ∑ array ∈ (Finset.range a.count).erase self, ((a.set self items).items array : Multiset α)
        = ∑ array ∈ (Finset.range a.count).erase self, (a.items array : Multiset α) := by
    refine Finset.sum_congr rfl (fun array inside => ?_)
    rw [set_items_of_ne (Finset.ne_of_mem_erase inside)]
  have changed : (a.set self items).owned
      = (items : Multiset α)
        + ∑ array ∈ (Finset.range a.count).erase self, (a.items array : Multiset α) := by
    have whole : (a.set self items).owned = _ := owned_eq present
    rw [set_items_self] at whole
    rw [← others]
    exact whole
  rw [changed, owned_eq present]
  ac_rfl

/-- The items of a new list are owned besides the others. -/
theorem owned_add (cap : Nat) (items : List α)
    : (a.add cap items).owned = a.owned + (items : Multiset α) := by
  have count : (a.add cap items).count = a.count + 1 := rfl
  rw [owned, count, Finset.sum_range_succ, add_items_new, owned]
  refine congrArg (· + _) (Finset.sum_congr rfl (fun array inside => ?_))
  rw [add_items_of_ne (Nat.ne_of_lt (Finset.mem_range.mp inside))]

/-- Nothing is lost and nothing is doubled between two states. -/
def Balanced (a a' : BoundedLists α) (put returned : Multiset α) : Prop :=
  a'.owned + (a'.dropped : Multiset α) + returned = a.owned + (a.dropped : Multiset α) + put

theorem Balanced.refl : a.Balanced a 0 0 := rfl

theorem Balanced.trans {a' a'' : BoundedLists α} {put put' returned returned' : Multiset α}
    (first : a.Balanced a' put returned) (second : a'.Balanced a'' put' returned')
    : a.Balanced a'' (put + put') (returned + returned') := by
  rw [Balanced] at first second ⊢
  calc
    a''.owned + (a''.dropped : Multiset α) + (returned + returned')
      = a''.owned + (a''.dropped : Multiset α) + returned' + returned := by
      ac_rfl
    _ = a'.owned + (a'.dropped : Multiset α) + returned + put' := by
      rw [second]
      ac_rfl
    _ = a.owned + (a.dropped : Multiset α) + (put + put') := by
      rw [first]
      ac_rfl

/-- What is handed from one list to another is neither put nor handed back. -/
theorem Balanced.cancel {a' : BoundedLists α} {put returned moved : Multiset α}
    (balanced : a.Balanced a' (put + moved) (returned + moved))
    : a.Balanced a' put returned := by
  rw [Balanced, ← add_assoc, ← add_assoc] at balanced
  exact add_right_cancel balanced

/-- One list has lost what was handed back and got what was put into it. -/
theorem Balanced.of_set {items : List α} {put returned : Multiset α} (present : self < a.count)
    (exchange : (items : Multiset α) + returned = (a.items self : Multiset α) + put)
    : a.Balanced (a.set self items) put returned := by
  have changed := owned_set present items
  have dropped : (a.set self items).dropped = a.dropped := rfl
  rw [Balanced, dropped]
  have sum : (a.set self items).owned + (a.dropped : Multiset α) + returned
        + (a.items self : Multiset α)
      = a.owned + (a.dropped : Multiset α) + put + (a.items self : Multiset α) := by
    calc
      (a.set self items).owned + (a.dropped : Multiset α) + returned + (a.items self : Multiset α)
        = ((a.set self items).owned + (a.items self : Multiset α)) + (a.dropped : Multiset α)
          + returned := by
        ac_rfl
      _ = a.owned + (a.dropped : Multiset α) + ((items : Multiset α) + returned) := by
        rw [changed]
        ac_rfl
      _ = a.owned + (a.dropped : Multiset α) + put + (a.items self : Multiset α) := by
        rw [exchange]
        ac_rfl
  exact add_right_cancel sum

/-- A new list has got its items. -/
theorem Balanced.of_add (cap : Nat) (items : List α) : a.Balanced (a.add cap items) items 0 := by
  have dropped : (a.add cap items).dropped = a.dropped := rfl
  rw [Balanced, owned_add, dropped, add_zero]
  ac_rfl

/-- Dropped values are as good as handed back. -/
theorem Balanced.drop {a' : BoundedLists α} {put : Multiset α} {lost : List α}
    (balanced : a.Balanced a' put lost)
    : a.Balanced { a' with dropped := a'.dropped ++ lost.reverse } put 0 := by
  rw [Balanced] at balanced ⊢
  rw [← balanced, ← Multiset.coe_add, Multiset.coe_reverse, add_zero, ← add_assoc]
  rfl

/-- The operation gives one list anew. -/
theorem commit_balanced {committed : Except Panic (List α)}
    (put : Except Failure (Answer α) → Multiset α)
    (present : self < a.count) (fails : ∀ failure, put (.error failure) = 0)
    (exchange
      : ∀ items,
          committed = .ok items
          → (items : Multiset α) = (a.items self : Multiset α) + put (.ok .unit))
    : a.Balanced (a.commit self committed).2 (put (a.commit self committed).1)
        (returned (a.commit self committed).1) := by
  cases committed with
  | error panic =>
      show a.Balanced a (put (.error _)) 0
      rw [fails]
      exact .refl
  | ok items =>
      apply Balanced.of_set present
      exact (add_zero _).trans (exchange items rfl)

/-- The operation moves all items of one list into another one. -/
theorem absorb_balanced {other : Nat} {joined : Except Panic (List α)} (present : self < a.count)
    (presentOther : other < a.count) (apart : self ≠ other)
    (exchange
      : ∀ items,
          joined = .ok items
          → (items : Multiset α) = (a.items self : Multiset α) + (a.items other : Multiset α))
    : a.Balanced (a.absorb self other joined).2 0 (returned (a.absorb self other joined).1) := by
  unfold absorb
  split_ifs
  · cases joined with
    | error panic => exact .refl
    | ok items =>
        have gains : a.Balanced (a.set self items) (0 + a.items other) 0 := by
          apply Balanced.of_set present
          rw [exchange items rfl, zero_add, add_zero]
        have gives
            : (a.set self items).Balanced ((a.set self items).set other []) 0
                (a.items other) := by
          apply Balanced.of_set (a := a.set self items) presentOther
          rw [set_items_of_ne apart.symm, add_zero]
          exact zero_add _
        have both := gains.trans gives
        rw [add_zero] at both
        exact both.cancel
  · exact .refl

/-- The operation loses no value and doubles none. -/
theorem perform_balanced (operation : Operation α) (valid : operation.Valid a.count)
    : a.Balanced (a.perform elementSize operation).2
        (operation.put (a.perform elementSize operation).1)
        (returned (a.perform elementSize operation).1) := by
  cases operation with
  | withCapacity cap =>
      simp only [perform]
      split_ifs
      · exact Balanced.of_add cap []
      · exact .refl
      · exact .refl
  | asSlice self => exact .refl
  | push self value =>
      apply commit_balanced (fun result => (Operation.push self value).put result) valid
      · exact fun _ => rfl
      · intro items pushed
        unfold Array.push at pushed
        split_ifs at pushed
        cases pushed
        rfl
  | pop self =>
      cases (a.items self).eq_nil_or_concat' with
      | inl empty =>
          simp only [perform, empty, Array.pop, List.getLast?_nil, Option.map_none]
          exact .refl
      | inr nonempty =>
          obtain ⟨front, value, items⟩ := nonempty
          simp only [perform, items, Array.pop_append]
          apply Balanced.of_set valid
          rw [items]
          exact (Multiset.coe_add front [value]).trans (add_zero _).symm
  | insert self index value =>
      apply commit_balanced (fun result => (Operation.insert self index value).put result) valid
      · exact fun _ => rfl
      · intro items inserted
        unfold Array.insert at inserted
        split_ifs at inserted with bound room
        cases inserted
        have perm := List.perm_insertIdx value (a.items self) bound
        rw [Multiset.coe_eq_coe.mpr perm, ← Multiset.cons_coe, ← Multiset.singleton_add, add_comm]
        rfl
  | remove self index =>
      simp only [perform, Array.remove]
      cases found : (a.items self)[index]? with
      | none => exact .refl
      | some value =>
          obtain ⟨bound, rfl⟩ := List.getElem?_eq_some_iff.mp found
          apply Balanced.of_set valid
          have perm := List.getElem_cons_eraseIdx_perm bound
          show ((a.items self).eraseIdx index : Multiset α) + {(a.items self)[index]}
            = (a.items self : Multiset α) + 0
          rw [add_zero, ← Multiset.coe_eq_coe.mpr perm, ← Multiset.cons_coe,
            ← Multiset.singleton_add, add_comm]
  | splitOff self index =>
      simp only [perform, Array.splitOff]
      split_ifs with bound
      · have parts
            : ((a.items self).take index : Multiset α) + ((a.items self).drop index : Multiset α)
              = (a.items self : Multiset α) := by
          rw [Multiset.coe_add, List.take_append_drop]
        have gives
            : a.Balanced (a.set self ((a.items self).take index)) 0
                ((a.items self).drop index) := by
          apply Balanced.of_set valid
          rw [parts, add_zero]
        have both := gives.trans
          (Balanced.of_add (a := a.set self ((a.items self).take index)) (a.cap self)
            ((a.items self).drop index))
        rw [add_comm _ 0] at both
        exact both.cancel
      · exact .refl
  | appendFrom self other =>
      apply absorb_balanced valid.1 valid.2.1 valid.2.2
      intro items joined
      unfold Array.appendFrom at joined
      split_ifs at joined
      cases joined
      exact (Multiset.coe_add _ _).symm
  | prependFrom self other =>
      apply absorb_balanced valid.1 valid.2.1 valid.2.2
      intro items joined
      unfold Array.prependFrom at joined
      split_ifs at joined
      cases joined
      rw [← Multiset.coe_add, add_comm]
  | clear self panics =>
      have none : returned (a.perform elementSize (.clear self panics)).1 = 0 := by
        simp only [perform]
        split_ifs <;> rfl
      rw [none]
      apply Balanced.drop
      apply Balanced.of_set valid
      rw [Multiset.coe_add, List.take_append_drop]
      exact (add_zero _).symm

variable {a' : BoundedLists α} {trace : List (Transition (BoundedLists α) _)}

/-- No run loses a value or doubles one, by induction on the run. -/
theorem run_balanced (run : (boundedLists α elementSize).Run a trace a')
    : a.Balanced a' (allPut (trace.map Transition.label))
        (allReturned (trace.map Transition.label)) := by
  induction run with
  | nil => exact .refl
  | @snoc trace middle label finish run step ih =>
      have balanced
          : middle.Balanced (middle.perform elementSize label.1).2
              (label.1.put (middle.perform elementSize label.1).1)
              (returned (middle.perform elementSize label.1).1) :=
        perform_balanced label.1 step.1
      rw [step.2] at balanced
      have both := ih.trans balanced
      simpa [allPut, allReturned] using both

-----------------------------------------------------------------------------------------
-- Clearing again and again
-----------------------------------------------------------------------------------------

/-- Without a panic nothing is left. -/
theorem leftBy_eq_zero {panics : Nat → Bool} {length : Nat}
    (none : ¬ (List.range length).any panics)
    : leftBy panics length = 0 := by
  induction length with
  | zero => rfl
  | succ length ih =>
      rw [List.range_succ, List.any_append, Bool.or_eq_true, not_or] at none
      rw [leftBy, if_neg (by simpa using none.2)]
      exact ih none.1

/-- The item whose destructor panics is gone, too. -/
theorem leftBy_le_pred (panics : Nat → Bool) (length : Nat)
    : leftBy panics length ≤ length - 1 := by
  cases length with
  | zero => exact Nat.le_refl 0
  | succ length =>
      rw [leftBy, Nat.add_sub_cancel]
      split_ifs
      · exact Nat.le_refl length
      · exact leftBy_le panics length

/-- One call of `clear`. -/
theorem perform_clear {panics : Nat → Bool} {result : Except Failure (Answer α)}
    (performs : a.perform elementSize (.clear self panics) = (result, a'))
    : a'.count = a.count
      ∧ a'.dropped ++ (a'.items self).reverse = a.dropped ++ (a.items self).reverse
      ∧ (a'.items self).length ≤ (a.items self).length - 1
      ∧ (result = .ok .unit → a'.items self = []) := by
  obtain ⟨rfl, rfl⟩ := Prod.mk.inj performs
  have items
      : ({ a.set self ((a.items self).take (leftBy panics (a.items self).length)) with
            dropped :=
              a.dropped ++ ((a.items self).drop (leftBy panics (a.items self).length)).reverse }
          : BoundedLists α).items self
        = (a.items self).take (leftBy panics (a.items self).length) :=
    set_items_self
  rw [items]
  refine ⟨rfl, ?_, ?_, ?_⟩
  · rw [List.append_assoc, ← List.reverse_append, List.take_append_drop]
  · exact Nat.le_trans (List.length_take_le _ _) (leftBy_le_pred _ _)
  · intro returns
    split_ifs at returns with stops
    rw [leftBy_eq_zero stops, List.take_zero]

/-- Calls of `clear` start each destructor once, from the last item on: each of them removes at
least one item, and one that returns leaves nothing.
-/
theorem run_clears (run : (boundedLists α elementSize).Run a trace a')
    (clears : ∀ label ∈ trace.map Transition.label, ∃ panics, label.1 = .clear self panics)
    : a'.count = a.count
      ∧ a'.dropped ++ (a'.items self).reverse = a.dropped ++ (a.items self).reverse
      ∧ (a'.items self).length ≤ (a.items self).length - trace.length
      ∧ ((∃ label ∈ trace.map Transition.label, label.2 = .ok .unit) → a'.items self = []) := by
  induction run with
  | nil => exact ⟨rfl, rfl, Nat.le_refl _, fun none => by simp at none⟩
  | @snoc trace middle label finish run step ih =>
      rw [List.map_append] at clears ⊢
      obtain ⟨count, order, fewer, emptied⟩ := ih
        (fun label member => clears label (List.mem_append_left _ member))
      obtain ⟨panics, isClear⟩ := clears label (by simp)
      have performs := step.2
      rw [isClear] at performs
      obtain ⟨sameCount, sameOrder, oneFewer, noneLeft⟩ := perform_clear performs
      refine ⟨sameCount.trans count, sameOrder.trans order, ?_, ?_⟩
      · rw [List.length_append, List.length_singleton]
        omega
      · intro someReturned
        obtain ⟨one, member, returns⟩ := someReturned
        cases List.mem_append.mp member with
        | inl before =>
            have empty := emptied ⟨one, before, returns⟩
            rw [empty] at oneFewer
            exact List.eq_nil_of_length_eq_zero (Nat.le_zero.mp oneFewer)
        | inr last =>
            rw [List.mem_singleton.mp last] at returns
            exact noneLeft returns

end BoundedLists

end BLink
