import BLink.Library.SortedMap
import Mathlib.Data.Set.Card

/-! The keys that a sorted map stores, as a set.
Of keys that equal each other at most one is stored: an insertion keeps the key that is there.
-/

namespace Library

namespace SortedMap

universe u v

variable {K : Type u} [TotalOrd K] {V : Type v}

/-- The stored keys. -/
def keys (map : SortedMap K V) : Set K :=
  {key | ∃ record ∈ map.records, record.1 = key}

variable {map : SortedMap K V} {query : Query K} {key : K} {record : K × V} {found : Option (K × V)}

theorem mem_keys_of_mem (member : record ∈ map.records) : record.1 ∈ map.keys :=
  ⟨record, member, rfl⟩

theorem exists_key_iff {accepts : K → Prop}
    : (∃ key ∈ map.keys, accepts key) ↔ ∃ record ∈ map.records, accepts record.1 := by
  constructor
  · intro some
    obtain ⟨key, ⟨record, member, rfl⟩, accepted⟩ := some
    exact ⟨record, member, accepted⟩
  · intro some
    obtain ⟨record, member, accepted⟩ := some
    exact ⟨record.1, mem_keys_of_mem member, accepted⟩

theorem find?_isSome_iff
    : (map.find? query).isSome = true ↔ ∃ key ∈ map.keys, query.cmp key = .eq := by
  rw [exists_key_iff, Option.isSome_iff_exists]
  simp only [find?_eq_some]

/-- If the records that satisfy a condition are the one that is found, so are the keys. -/
theorem map_fst_eq_some_iff (accepts : K → Prop)
    (found? : ∀ record, found = some record ↔ record ∈ map.records ∧ accepts record.1)
    : found.map Prod.fst = some key ↔ key ∈ map.keys ∧ accepts key := by
  rw [Option.map_eq_some_iff]
  constructor
  · intro some
    obtain ⟨record, isFound, rfl⟩ := some
    obtain ⟨member, accepted⟩ := (found? record).mp isFound
    exact ⟨mem_keys_of_mem member, accepted⟩
  · intro stored
    obtain ⟨⟨record, member, rfl⟩, accepted⟩ := stored
    exact ⟨record, (found? record).mpr ⟨member, accepted⟩, rfl⟩

theorem find?_map_fst
    : (map.find? query).map Prod.fst = some key ↔ key ∈ map.keys ∧ query.cmp key = .eq :=
  map_fst_eq_some_iff (fun key => query.cmp key = .eq) (fun _ => find?_eq_some)

theorem first?_map_fst
    : map.first?.map Prod.fst = some key
      ↔ key ∈ map.keys ∧ ∀ other ∈ map.keys, (compare key other).isLE := by
  refine map_fst_eq_some_iff (fun key => ∀ other ∈ map.keys, (compare key other).isLE) ?_
  intro record
  rw [first?_eq_some]
  refine and_congr_right (fun _ => ?_)
  constructor
  · rintro least _ ⟨other, member, rfl⟩
    exact least other member
  · exact fun least other member => least other.1 (mem_keys_of_mem member)

/-- The last record is the greatest one. -/
theorem last?_eq_some
    : map.last? = some record
      ↔ record ∈ map.records ∧ ∀ other ∈ map.records, (compare other.1 record.1).isLE := by
  rw [last?]
  rcases List.eq_nil_or_concat' map.records with empty | ⟨front, last, records⟩
  · simp [empty]
  · have sorted := map.sorted
    rw [records] at sorted
    have below (other : K × V) (member : other ∈ front) : compare other.1 last.1 = .lt :=
      (SortedBy.append_iff.mp sorted).2.2 other member last List.mem_cons_self
    rw [records, List.getLast?_concat, Option.some_inj]
    constructor
    · rintro rfl
      refine ⟨List.mem_concat_self, fun other member => ?_⟩
      cases List.mem_append.mp member with
      | inl before => exact isLE_of_compare_lt (below other before)
      | inr same => rw [List.mem_singleton.mp same, Std.ReflOrd.compare_self]; rfl
    · rintro ⟨member, greatest⟩
      cases List.mem_append.mp member with
      | inl before =>
          have le := greatest last List.mem_concat_self
          exact absurd le (Std.OrientedCmp.not_isLE_of_lt (below record before))
      | inr same => exact (List.mem_singleton.mp same).symm

theorem last?_map_fst
    : map.last?.map Prod.fst = some key
      ↔ key ∈ map.keys ∧ ∀ other ∈ map.keys, (compare other key).isLE := by
  refine map_fst_eq_some_iff (fun key => ∀ other ∈ map.keys, (compare other key).isLE) ?_
  intro record
  rw [last?_eq_some]
  refine and_congr_right (fun _ => ?_)
  constructor
  · rintro greatest _ ⟨other, member, rfl⟩
    exact greatest other member
  · exact fun greatest other member => greatest other.1 (mem_keys_of_mem member)

/-- The set has as many keys as the map has records. -/
theorem ncard_keys (map : SortedMap K V) : map.keys.ncard = map.size := by
  have nodup : (map.records.map Prod.fst).Nodup := by
    have sorted : SortedBy id (map.records.map Prod.fst) := List.pairwise_map.mpr map.sorted
    exact sorted.nodup
  classical
  have finset : map.keys = ((map.records.map Prod.fst).toFinset : Set K) := by
    ext key
    simp [keys]
  rw [finset, Set.ncard_coe_finset, List.toFinset_card_of_nodup nodup, List.length_map, size]

theorem keys_eq_empty : map.keys = ∅ ↔ map.size = 0 := by
  rw [size, List.length_eq_zero_iff, Set.eq_empty_iff_forall_notMem,
    List.eq_nil_iff_forall_not_mem]
  constructor
  · exact fun none record member => none record.1 (mem_keys_of_mem member)
  · rintro none _ ⟨record, member, -⟩
    exact none record member

theorem keys_insert_of_found {value : V} (found : map.find? (.ofKey key) = some record)
    : (map.insert key value).keys = map.keys := by
  ext other
  constructor
  · rintro ⟨stored, member, rfl⟩
    cases (mem_insert_of_found found).mp member with
    | inl replaced =>
        rw [replaced]
        exact ⟨record, (find?_eq_some.mp found).1, rfl⟩
    | inr kept => exact mem_keys_of_mem kept.1
  · rintro ⟨stored, member, rfl⟩
    by_cases equal : compare key stored.1 = .eq
    · have same : map.find? (.ofKey key) = some stored := find?_eq_some.mpr ⟨member, equal⟩
      rw [found] at same
      cases same
      exact ⟨_, (mem_insert_of_found found).mpr (.inl rfl), rfl⟩
    · exact mem_keys_of_mem ((mem_insert_of_found found).mpr (.inr ⟨member, equal⟩))

theorem keys_insert_of_missing {value : V} (missing : map.find? (.ofKey key) = none)
    : (map.insert key value).keys = Insert.insert key map.keys := by
  ext other
  rw [Set.mem_insert_iff]
  constructor
  · rintro ⟨stored, member, rfl⟩
    cases (mem_insert_of_missing missing).mp member with
    | inl added => exact .inl (congrArg Prod.fst added)
    | inr kept => exact .inr (mem_keys_of_mem kept)
  · intro inside
    cases inside with
    | inl added =>
        subst added
        exact ⟨_, (mem_insert_of_missing missing).mpr (.inl rfl), rfl⟩
    | inr kept =>
        obtain ⟨stored, member, rfl⟩ := kept
        exact mem_keys_of_mem ((mem_insert_of_missing missing).mpr (.inr member))

theorem keys_erase (map : SortedMap K V) (query : Query K)
    : (map.erase query).keys = {key ∈ map.keys | query.cmp key ≠ .eq} := by
  ext key
  constructor
  · rintro ⟨record, member, rfl⟩
    obtain ⟨stored, differs⟩ := mem_erase.mp member
    exact ⟨mem_keys_of_mem stored, differs⟩
  · rintro ⟨⟨record, member, rfl⟩, differs⟩
    exact mem_keys_of_mem (mem_erase.mpr ⟨member, differs⟩)

theorem keys_modify (map : SortedMap K V) (query : Query K) (write : V → V)
    : (map.modify query write).keys = map.keys := by
  ext key
  constructor
  · rintro ⟨record, member, rfl⟩
    cases mem_modify.mp member with
    | inl written =>
        obtain ⟨old, stored, -, rfl⟩ := written
        exact ⟨old, stored, rfl⟩
    | inr kept => exact mem_keys_of_mem kept.1
  · rintro ⟨record, member, rfl⟩
    by_cases equal : query.cmp record.1 = .eq
    · exact ⟨_, mem_modify.mpr (.inl ⟨record, member, equal, rfl⟩), rfl⟩
    · exact mem_keys_of_mem (mem_modify.mpr (.inr ⟨member, equal⟩))

end SortedMap

end Library
