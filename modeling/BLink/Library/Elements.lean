import BLink.Library.SortedMap
import Mathlib.Data.List.Perm.Subperm
import Mathlib.Data.Set.Lattice
import Mathlib.Order.CompletePartialOrder

/-! The keys of a sorted map as a set, in which equal keys stand for each other.
Inclusion, disjointness and equality of such sets are decided by one pass over the records of
one of the maps.
-/

namespace Library

universe u v

variable {K : Type u} [TotalOrd K] {V : Type v}

namespace SortedMap

/-- The keys that equal a key of the map. -/
def elements (map : SortedMap K V) : Set K :=
  {key | ∃ record ∈ map.records, compare key record.1 = .eq}

variable {map other : SortedMap K V} {key : K}

theorem mem_elements : key ∈ map.elements ↔ (map.find? (.ofKey key)).isSome := by
  rw [Option.isSome_iff_exists]
  simp only [find?_eq_some]
  rfl

theorem mem_elements_of_mem {record : K × V} (member : record ∈ map.records)
    : record.1 ∈ map.elements :=
  ⟨record, member, Std.ReflOrd.compare_self⟩

/-- With a key, a set has all keys that equal it. -/
theorem mem_elements_congr {key' : K} (equal : compare key key' = .eq)
    : key ∈ map.elements ↔ key' ∈ map.elements := by
  constructor
  · intro inside
    obtain ⟨record, member, same⟩ := inside
    exact ⟨record, member, (compare_congr_left equal).symm.trans same⟩
  · intro inside
    obtain ⟨record, member, same⟩ := inside
    exact ⟨record, member, (compare_congr_left equal).trans same⟩

/-- A set is part of another one if all its stored keys are. -/
theorem elements_subset_iff
    : map.elements ⊆ other.elements ↔ ∀ record ∈ map.records, record.1 ∈ other.elements := by
  constructor
  · exact fun subset record member => subset (mem_elements_of_mem member)
  · intro stored key inside
    obtain ⟨record, member, equal⟩ := inside
    exact (mem_elements_congr equal).mpr (stored record member)

/-- Two sets are disjoint if no stored key of the first one is in the second one. -/
theorem elements_disjoint_iff
    : Disjoint map.elements other.elements
      ↔ ∀ record ∈ map.records, record.1 ∉ other.elements := by
  rw [Set.disjoint_left]
  constructor
  · exact fun apart record member => apart (mem_elements_of_mem member)
  · intro stored key inside also
    obtain ⟨record, member, equal⟩ := inside
    exact stored record member ((mem_elements_congr equal).mp also)

/-- A map is empty just if its set is disjoint from itself. -/
theorem elements_disjoint_self : Disjoint map.elements map.elements ↔ map.size = 0 := by
  rw [elements_disjoint_iff, size, List.length_eq_zero_iff]
  constructor
  · intro none
    refine List.eq_nil_iff_forall_not_mem.mpr (fun record member => ?_)
    exact none record member (mem_elements_of_mem member)
  · intro empty record member
    rw [empty] at member
    cases member

/-- The records of the other map with the keys of this one, in their order. -/
theorem exists_matched (subset : map.elements ⊆ other.elements)
    : ∃ matched : List (K × V),
        matched.length = map.size
        ∧ matched.Subperm other.records
        ∧ ∀ record ∈ matched, record.1 ∈ map.elements := by
  have found (record : K × V) (member : record ∈ map.records)
      : ∃ match' ∈ other.records, compare record.1 match'.1 = .eq :=
    subset (mem_elements_of_mem member)
  let partner (record : K × V) : K × V := (other.find? (.ofKey record.1)).getD record
  have paired (record : K × V) (member : record ∈ map.records)
      : partner record ∈ other.records ∧ compare record.1 (partner record).1 = .eq := by
    obtain ⟨match', stored, equal⟩ := found record member
    have located : other.find? (.ofKey record.1) = some match' := find?_eq_some.mpr ⟨stored, equal⟩
    simp only [partner, located, Option.getD_some]
    exact ⟨stored, equal⟩
  have sorted : SortedBy Prod.fst (map.records.map partner) := by
    refine List.pairwise_map.mpr ?_
    refine List.Pairwise.imp_of_mem (fun {a b} inside also less => ?_) map.sorted
    rw [← compare_congr_left (paired a inside).2, ← compare_congr_right (paired b also).2]
    exact less
  refine ⟨map.records.map partner, List.length_map _, ?_, ?_⟩
  · refine List.subperm_of_subset sorted.nodup (fun record inside => ?_)
    obtain ⟨origin, member, rfl⟩ := List.mem_map.mp inside
    exact (paired origin member).1
  · intro record inside
    obtain ⟨origin, member, rfl⟩ := List.mem_map.mp inside
    exact ⟨origin, member, Std.OrientedCmp.eq_symm (paired origin member).2⟩

theorem size_le_of_subset (subset : map.elements ⊆ other.elements) : map.size ≤ other.size := by
  obtain ⟨matched, count, subperm, -⟩ := exists_matched subset
  rw [← count]
  exact subperm.length_le

/-- A subset that is not smaller is all of the set. -/
theorem elements_eq_of_subset (subset : map.elements ⊆ other.elements)
    (size : other.size ≤ map.size)
    : map.elements = other.elements := by
  obtain ⟨matched, count, subperm, inside⟩ := exists_matched subset
  have perm := subperm.perm_of_length_le (by rw [count]; exact size)
  refine subset.antisymm (elements_subset_iff.mpr (fun record member => ?_))
  exact inside record (perm.mem_iff.mpr member)

theorem size_eq_of_elements_eq (same : map.elements = other.elements) : map.size = other.size :=
  Nat.le_antisymm (size_le_of_subset same.le) (size_le_of_subset same.ge)

end SortedMap

end Library
