import BLink.Library.SortedMap
import Mathlib.Data.List.Induction

/-! Maps that are collected from lists of pairs.
Of the pairs with equal keys the first one gives the key object, and the last one the value. A list
of pairs that is sorted already is the list of records of the map that is collected from it.
-/

namespace Library

namespace SortedMap

universe u v

variable {K : Type u} [TotalOrd K] {V : Type v}

/-- The record of the map that is collected from the pairs, by their first and their last pair with
a key that equals the query.
-/
def collected (pairs : List (K × V)) (query : Query K) : Option (K × V) :=
  (pairs.find? (fun pair => query.cmp pair.1 = .eq)).bind fun first =>
    (pairs.reverse.find? (fun pair => query.cmp pair.1 = .eq)).map fun last => (first.1, last.2)

variable {map : SortedMap K V} {pairs : List (K × V)} {query : Query K} {pair record : K × V}

theorem collected_eq_some
    : collected pairs query = some record
      ↔ ∃ value key,
          pairs.find? (fun pair => query.cmp pair.1 = .eq) = some (record.1, value)
          ∧ pairs.reverse.find? (fun pair => query.cmp pair.1 = .eq) = some (key, record.2) := by
  rw [collected, Option.bind_eq_some_iff]
  constructor
  · intro both
    obtain ⟨first, isFirst, mapped⟩ := both
    obtain ⟨last, isLast, rfl⟩ := Option.map_eq_some_iff.mp mapped
    exact ⟨first.2, last.1, isFirst, isLast⟩
  · intro both
    obtain ⟨value, key, isFirst, isLast⟩ := both
    exact ⟨_, isFirst, Option.map_eq_some_iff.mpr ⟨_, isLast, rfl⟩⟩

theorem insertAll_concat (map : SortedMap K V) (pairs : List (K × V)) (pair : K × V)
    : map.insertAll (pairs ++ [pair]) = (map.insertAll pairs).insert pair.1 pair.2 := by
  rw [insertAll, List.foldl_append]
  rfl

theorem collected_concat_of_ne (differs : query.cmp pair.1 ≠ .eq)
    : collected (pairs ++ [pair]) query = collected pairs query := by
  rw [collected, List.find?_append, List.find?_cons_of_neg (by simpa using differs), List.find?_nil,
    Option.or_none, List.reverse_append, List.reverse_singleton, List.singleton_append,
    List.find?_cons_of_neg (by simpa using differs), collected]

theorem collected_concat_of_eq (equal : query.cmp pair.1 = .eq)
    : collected (pairs ++ [pair]) query
      = some (((collected pairs query).map Prod.fst).getD pair.1, pair.2) := by
  have last : (pairs ++ [pair]).reverse.find? (fun pair => query.cmp pair.1 = .eq) = some pair := by
    rw [List.reverse_append, List.reverse_singleton, List.singleton_append]
    exact List.find?_cons_of_pos (decide_eq_true equal)
  have only : [pair].find? (fun pair => query.cmp pair.1 = .eq) = some pair :=
    List.find?_cons_of_pos (decide_eq_true equal)
  rw [collected, last, List.find?_append, only, collected]
  cases first : pairs.find? (fun pair => query.cmp pair.1 = .eq) with
  | none => rfl
  | some found =>
      have inside : found ∈ pairs.reverse :=
        List.mem_reverse.mpr (List.mem_of_find?_eq_some first)
      have isSome : (pairs.reverse.find? (fun pair => query.cmp pair.1 = .eq)).isSome = true :=
        List.find?_isSome.mpr ⟨found, inside, by simpa using List.find?_some first⟩
      obtain ⟨last, isLast⟩ := Option.isSome_iff_exists.mp isSome
      rw [isLast]
      rfl

/-- What a collected map finds, by induction on the pairs from the last one. -/
theorem find?_insertAll_empty (pairs : List (K × V)) (query : Query K)
    : (empty.insertAll pairs).find? query = collected pairs query := by
  induction pairs using List.reverseRecOn with
  | nil => rfl
  | append_singleton pairs pair ih =>
      rw [insertAll_concat]
      by_cases equal : query.cmp pair.1 = .eq
      · have same := Query.eq_ofKey equal
        rw [collected_concat_of_eq equal, ← ih, same, find?_insert_same]
      · rw [collected_concat_of_ne equal, ← ih, find?_insert_other _ _ equal]

/-- The records of a collected map. -/
theorem mem_insertAll_empty
    : record ∈ (empty.insertAll pairs).records
      ↔ collected pairs (.ofKey record.1) = some record := by
  rw [← find?_insertAll_empty, find?_eq_some]
  exact (and_iff_left Std.ReflOrd.compare_self).symm

/-- Collecting the records of a map gives the map. -/
theorem insertAll_records (map : SortedMap K V) : empty.insertAll map.records = map := by
  obtain ⟨records, sorted⟩ := map
  suffices same : (empty.insertAll records).records = records by
    cases isMap : empty.insertAll records
    rw [isMap] at same
    subst same
    rfl
  induction records using List.reverseRecOn with
  | nil => rfl
  | append_singleton records record ih =>
      have before := (SortedBy.append_iff.mp sorted).1
      have front : (empty.insertAll records).records = records ++ [] := by
        rw [List.append_nil, ih before]
      rw [insertAll_concat, insert_records_add front sorted]

end SortedMap

end Library
