import BLink.Library.SortedMap
import BLink.Library.TransitionSystem
import Mathlib.Algebra.BigOperators.Group.Finset.Basic

/-! Resources that enter and leave a transition system, and that no step of it makes or loses.
How much there is of them is an element of any commutative monoid: a number, say, or the
multiset of the resources themselves.
-/

namespace Library

universe u v w

variable {M : Type w} [AddCommMonoid M]

-----------------------------------------------------------------------------------------
-- Runs
-----------------------------------------------------------------------------------------

section Runs

variable {σ : Type u} {ℓ : Type v} {system : TransitionSystem σ ℓ}

/-- The amounts of all labels of a trace together. -/
def total (amount : ℓ → M) (trace : List (Transition σ ℓ)) : M :=
  (trace.map (fun transition => amount transition.label)).sum

theorem total_snoc (amount : ℓ → M) (trace : List (Transition σ ℓ)) (last : Transition σ ℓ)
    : total amount (trace ++ [last]) = total amount trace + amount last.label := by
  simp [total]

/-- If every step keeps the balance, so does a run: what is in stock at its end, and what has
left, is what was in stock before, and what has entered. `Stocks` tells how much a state has in
stock, and whatever else the next step relies on.
-/
theorem TransitionSystem.Run.balanced {start finish : σ} {trace : List (Transition σ ℓ)}
    {enters leaves : ℓ → M} {Stocks : σ → M → Prop} {before : M}
    (run : system.Run start trace finish) (initial : Stocks start before)
    (step
      : ∀ transition ∈ trace,
          ∀ stock,
            Stocks transition.source stock
            → system.step transition.source transition.label transition.target
            → ∃ stock',
                Stocks transition.target stock'
                ∧ stock' + leaves transition.label = stock + enters transition.label)
    : ∃ after,
        Stocks finish after ∧ after + total leaves trace = before + total enters trace := by
  induction run with
  | nil => exact ⟨before, initial, rfl⟩
  | @snoc trace middle label finish run last ih =>
      obtain ⟨stock, stocks, balance⟩ :=
        ih (fun transition member => step transition (List.mem_append_left _ member))
      obtain ⟨stock', stocks', kept⟩ :=
        step ⟨middle, label, finish⟩ (List.mem_append_right _ (List.mem_singleton_self _)) stock
          stocks last
      refine ⟨stock', stocks', ?_⟩
      calc
        stock' + total leaves (trace ++ [⟨middle, label, finish⟩])
          = stock' + leaves label + total leaves trace := by
            rw [total_snoc, add_right_comm, add_assoc]
        _ = stock + total leaves trace + enters label := by rw [kept, add_right_comm]
        _ = before + total enters (trace ++ [⟨middle, label, finish⟩]) := by
            rw [balance, total_snoc, add_assoc]

end Runs

/-- When one thread changes, the others' part of a sum over all threads stays. -/
theorem exists_sum_rest {ι : Type u} [Fintype ι] [DecidableEq ι] {before after : ι → M} {i : ι}
    (others : ∀ j, j ≠ i → after j = before j)
    : ∃ rest, ∑ j, before j = before i + rest ∧ ∑ j, after j = after i + rest := by
  refine ⟨∑ j ∈ Finset.univ.erase i, before j, ?_, ?_⟩
  · exact (Finset.add_sum_erase _ _ (Finset.mem_univ i)).symm
  · rw [← Finset.add_sum_erase _ _ (Finset.mem_univ i)]
    refine congrArg (after i + ·) (Finset.sum_congr rfl (fun j member => ?_))
    exact others j (Finset.ne_of_mem_erase member)

-----------------------------------------------------------------------------------------
-- The values of a sorted map
-----------------------------------------------------------------------------------------

namespace SortedMap

variable {K : Type u} [TotalOrd K] {V : Type v} (amount : V → M)

/-- The amounts of all values of a map together. -/
def worth (map : SortedMap K V) : M := (map.records.map (fun record => amount record.2)).sum

/-- The amount of a value that there may be. -/
def worthOf (value : Option V) : M := (value.map amount).getD 0

variable {amount} {map : SortedMap K V}

/-- An insertion puts its value in, and takes out the one that it replaces. -/
theorem worth_insert (map : SortedMap K V) (key : K) (value : V)
    : (map.insert key value).worth amount
        + worthOf amount ((map.find? (.ofKey key)).map Prod.snd)
      = map.worth amount + amount value := by
  cases found : map.find? (.ofKey key) with
  | some record =>
      obtain ⟨front, back, records⟩ := split_of_find? found
      have inserted := insert_records_replace value records (find?_eq_some.mp found).2
      simp only [worth, inserted, records, worthOf, List.map_append, List.map_cons,
        List.sum_append, List.sum_cons, Option.map_some, Option.getD_some]
      ac_rfl
  | none =>
      have differs := find?_eq_none.mp found
      simp only [Query.ofKey_cmp] at differs
      suffices sum : ((insertRecord key value map.records).map (fun record => amount record.2)).sum
          = (map.records.map (fun record => amount record.2)).sum + amount value by
        exact (add_zero _).trans sum
      generalize map.records = records at differs
      induction records with
      | nil => simp [insertRecord]
      | cons head tail ih =>
          have rest := ih (fun record member => differs record (List.mem_cons_of_mem head member))
          cases compared : compare key head.1 with
          | gt => simp [insertRecord, compared, rest, add_assoc]
          | eq => exact absurd compared (differs head List.mem_cons_self)
          | lt => simp [insertRecord, compared, add_comm]

/-- A removal takes out the value that it finds. -/
theorem worth_erase (map : SortedMap K V) (query : Query K)
    : (map.erase query).worth amount + worthOf amount ((map.find? query).map Prod.snd)
      = map.worth amount := by
  cases found : map.find? query with
  | some record =>
      obtain ⟨front, back, records⟩ := split_of_find? found
      have erased := erase_records records (find?_eq_some.mp found).2
      simp only [worth, erased, records, worthOf, List.map_append, List.map_cons,
        List.sum_append, List.sum_cons, Option.map_some, Option.getD_some]
      ac_rfl
  | none =>
      rw [erase_of_missing found]
      exact add_zero _

/-- Writing changes no amount, if the written value is worth as much as the one before it. -/
theorem worth_modify (map : SortedMap K V) (query : Query K) {write : V → V}
    (same : ∀ value, amount (write value) = amount value)
    : (map.modify query write).worth amount = map.worth amount := by
  rw [worth, worth, modify, List.map_map]
  refine congrArg List.sum (List.map_congr_left (fun record _ => ?_))
  simp only [Function.comp_apply]
  split_ifs
  · exact same record.2
  · rfl

end SortedMap

end Library
