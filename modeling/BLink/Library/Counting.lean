import Mathlib.Algebra.BigOperators.Group.Finset.Basic
import Mathlib.Algebra.Order.BigOperators.Group.Finset
import Mathlib.Data.Set.Card

/-! Counting the members of a family that are in some state, while one member at a time
changes.
-/

namespace Library

universe u v

variable {ι : Type u} {α : Type v}

-----------------------------------------------------------------------------------------
-- Changes of one member
-----------------------------------------------------------------------------------------

section

variable {state : ι → α} {satisfies : α → Prop} [DecidablePred satisfies]

/-- One for a state that counts. -/
def countOne (satisfies : α → Prop) [DecidablePred satisfies] (state : α) : Nat :=
  if satisfies state then 1 else 0

/-- The members that count are those among the others, and perhaps the given one. -/
theorem ncard_eq_others (finite : {member | satisfies (state member)}.Finite) (one : ι)
    : {member | satisfies (state member)}.ncard
        = {member | member ≠ one ∧ satisfies (state member)}.ncard
          + countOne satisfies (state one) := by
  have others : {member | member ≠ one ∧ satisfies (state member)}.Finite :=
    finite.subset (fun _ both => both.2)
  by_cases counts : satisfies (state one)
  · have split : {member | satisfies (state member)}
        = insert one {member | member ≠ one ∧ satisfies (state member)} := by
      ext member
      by_cases same : member = one
      · simp [same, counts]
      · simp [same]
    rw [countOne, if_pos counts, split, Set.ncard_insert_of_notMem (fun both => both.1 rfl) others]
  · have same : {member | satisfies (state member)}
        = {member | member ≠ one ∧ satisfies (state member)} := by
      ext member
      refine ⟨fun counted => ⟨?_, counted⟩, fun both => both.2⟩
      intro equal
      exact counts (equal ▸ counted)
    rw [countOne, if_neg counts, ← same, Nat.add_zero]

variable [DecidableEq ι]

omit [DecidablePred satisfies] in
/-- When one member changes, finitely many members count if they did so before. -/
theorem finite_update (finite : {member | satisfies (state member)}.Finite) (one : ι)
    (changed : α)
    : {member | satisfies (Function.update state one changed member)}.Finite := by
  refine (finite.insert one).subset (fun member counts => ?_)
  by_cases same : member = one
  · exact .inl same
  · refine .inr ?_
    rwa [Set.mem_ofPred_eq, Function.update_of_ne same] at counts

/-- When one member changes, the count changes with it. -/
theorem ncard_update (finite : {member | satisfies (state member)}.Finite) (one : ι)
    (changed : α)
    : {member | satisfies (Function.update state one changed member)}.ncard
          + countOne satisfies (state one)
        = {member | satisfies (state member)}.ncard + countOne satisfies changed := by
  have others : {member | member ≠ one ∧ satisfies (Function.update state one changed member)}
      = {member | member ≠ one ∧ satisfies (state member)} := by
    ext member
    refine and_congr_right (fun differs => ?_)
    rw [Function.update_of_ne differs]
  rw [ncard_eq_others (finite_update finite one changed) one, ncard_eq_others finite one, others,
    Function.update_self]
  omega

end

/-- Members at different places of positive weight are no more than all weights together. -/
theorem ncard_le_sum {β : Type v} [DecidableEq β] {members : Set ι} (finite : members.Finite)
    {place : ι → β} (apart : Set.InjOn place members) {row : List β} (nodup : row.Nodup)
    {weight : β → Nat}
    (inside : ∀ member ∈ members, place member ∈ row ∧ 0 < weight (place member))
    : members.ncard ≤ (row.map weight).sum := by
  obtain ⟨chosen, rfl⟩ := finite.exists_finset_coe
  have within : chosen.image place ⊆ row.toFinset := by
    intro position member
    obtain ⟨source, isMember, rfl⟩ := Finset.mem_image.mp member
    exact List.mem_toFinset.mpr (inside source isMember).1
  calc
    (chosen : Set ι).ncard = ∑ _member ∈ chosen, 1 := by
      rw [Set.ncard_coe_finset, Finset.card_eq_sum_ones]
    _ ≤ ∑ member ∈ chosen, weight (place member) :=
      Finset.sum_le_sum (fun member isMember => (inside member isMember).2)
    _ = ∑ position ∈ chosen.image place, weight position := (Finset.sum_image apart).symm
    _ ≤ ∑ position ∈ row.toFinset, weight position := Finset.sum_le_sum_of_subset within
    _ = (row.map weight).sum := List.sum_toFinset weight nodup

end Library
