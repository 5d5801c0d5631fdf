import BLink.Library.TotalOrder
import Mathlib.Data.List.Basic
import Mathlib.Data.List.Pairwise

/-! Searching strictly sorted lists, and the finite sorted map such a list represents.
Records are located by a key projection, so pages and abstract maps share the search.
-/

namespace Library

universe u v w

variable {K : Type u} [TotalOrd K] {V : Type v} {α : Type w}

-----------------------------------------------------------------------------------------
-- Strictly sorted lists
-----------------------------------------------------------------------------------------

/-- The keys of `items` are strictly increasing. -/
def SortedBy (key : α → K) (items : List α) : Prop :=
  items.Pairwise (fun a b => compare (key a) (key b) = .lt)

theorem SortedBy.append_iff {key : α → K} {front back : List α}
    : SortedBy key (front ++ back)
      ↔ SortedBy key front
        ∧ SortedBy key back
        ∧ ∀ a ∈ front, ∀ b ∈ back, compare (key a) (key b) = .lt :=
  List.pairwise_append

theorem SortedBy.cons_iff {key : α → K} {head : α} {tail : List α}
    : SortedBy key (head :: tail)
      ↔ (∀ b ∈ tail, compare (key head) (key b) = .lt) ∧ SortedBy key tail :=
  List.pairwise_cons

/-- Two elements of a sorted list with equal keys are the same element. -/
theorem SortedBy.eq_of_eq {key : α → K} {items : List α} (sorted : SortedBy key items)
    {a b : α} (ha : a ∈ items) (hb : b ∈ items) (equal : compare (key a) (key b) = .eq)
    : a = b := by
  induction items with
  | nil => cases ha
  | cons head tail ih =>
      obtain ⟨first, rest⟩ := SortedBy.cons_iff.mp sorted
      rcases List.mem_cons.mp ha with rfl | later <;> rcases List.mem_cons.mp hb with rfl | next
      · rfl
      · rw [first b next] at equal
        cases equal
      · have symm := Std.OrientedCmp.eq_symm equal
        rw [first a later] at symm
        cases symm
      · exact ih rest later next

/-- Sortedness depends on the keys only. -/
theorem SortedBy.of_map_eq {key : α → K} {left right : List α} (sorted : SortedBy key left)
    (same : right.map key = left.map key)
    : SortedBy key right := by
  have keys : (left.map key).Pairwise (fun a b => compare a b = .lt) :=
    List.pairwise_map.mpr sorted
  rw [← same] at keys
  exact List.pairwise_map.mp keys

/-- A sorted list has no repeated element. -/
theorem SortedBy.nodup {key : α → K} {items : List α} (sorted : SortedBy key items)
    : items.Nodup := by
  refine List.Pairwise.imp ?_ sorted
  intro a b lt same
  rw [same, Std.ReflOrd.compare_self] at lt
  cases lt

/-- Sorted lists are determined by their members. -/
theorem SortedBy.ext {key : α → K} {left right : List α} (hl : SortedBy key left)
    (hr : SortedBy key right) (same : ∀ a, a ∈ left ↔ a ∈ right)
    : left = right := by
  refine List.Perm.eq_of_pairwise ?_ hl hr
    ((List.perm_ext_iff_of_nodup hl.nodup hr.nodup).mpr same)
  intro a b _ _ ab ba
  rw [Std.OrientedCmp.gt_of_lt ab] at ba
  cases ba

-----------------------------------------------------------------------------------------
-- Binary search by its documented result
-----------------------------------------------------------------------------------------

/-- The result of searching a sorted slice: an equal element, or the insertion position. -/
inductive SearchResult where
  | found (index : Nat)
  | missing (index : Nat)
  deriving DecidableEq, Repr

/-- The same result one element further right. -/
def SearchResult.succ : SearchResult → SearchResult
  | .found index => .found (index + 1)
  | .missing index => .missing (index + 1)

/-- The result of a binary search over a sorted slice. `cmp` compares the target with an
element, so the elements below the target are those that compare `gt`.
-/
def binarySearchBy (cmp : α → Ordering) : List α → SearchResult
  | [] => .missing 0
  | item :: rest =>
      match cmp item with
      | .gt => (binarySearchBy cmp rest).succ
      | .eq => .found 0
      | .lt => .missing 0

/-- How a search result cuts a sorted list: everything before the position is below the
target, and everything from it on is above, except for the element that was found.
-/
inductive SearchCut (query : Query K) (key : α → K) (items : List α)
    : SearchResult → Prop
  | found (front : List α) (item : α) (back : List α)
    (split : items = front ++ item :: back)
    (equal : query.cmp (key item) = .eq)
    (below : ∀ a ∈ front, query.cmp (key a) = .gt)
    (above : ∀ a ∈ back, query.cmp (key a) = .lt)
    : SearchCut query key items (.found front.length)
  | missing (front back : List α)
    (split : items = front ++ back)
    (below : ∀ a ∈ front, query.cmp (key a) = .gt)
    (above : ∀ a ∈ back, query.cmp (key a) = .lt)
    : SearchCut query key items (.missing front.length)

/-- Prepending a smaller element moves a cut one position right. -/
theorem SearchCut.cons {query : Query K} {key : α → K} {items : List α} {result}
    (cut : SearchCut query key items result) {head : α} (lower : query.cmp (key head) = .gt)
    : SearchCut query key (head :: items) result.succ := by
  have prepend {front : List α} (below : ∀ a ∈ front, query.cmp (key a) = .gt)
      : ∀ a ∈ head :: front, query.cmp (key a) = .gt := by
    intro a member
    rcases List.mem_cons.mp member with rfl | member
    · exact lower
    · exact below a member
  cases cut with
  | found front item back split equal below above =>
      exact .found (head :: front) item back (by simp [split]) equal (prepend below) above
  | missing front back split below above =>
      exact .missing (head :: front) back (by simp [split]) (prepend below) above

/-- Searching a sorted list cuts it at the query, by induction on the list. -/
theorem binarySearchBy_cut {key : α → K} {items : List α} (sorted : SortedBy key items)
    (query : Query K)
    : SearchCut query key items (binarySearchBy (fun item => query.cmp (key item)) items) := by
  induction items with
  | nil => exact .missing [] [] rfl (by simp) (by simp)
  | cons head tail ih =>
      obtain ⟨first, rest⟩ := SortedBy.cons_iff.mp sorted
      cases compared : query.cmp (key head) with
      | gt => simpa [binarySearchBy, compared] using (ih rest).cons compared
      | eq =>
          have above := fun a member => query.lt_of_eq_of_lt compared (first a member)
          simpa [binarySearchBy, compared]
            using SearchCut.found [] head tail rfl compared (by simp) above
      | lt =>
          have above : ∀ a ∈ head :: tail, query.cmp (key a) = .lt := by
            intro a member
            rcases List.mem_cons.mp member with rfl | member
            · exact compared
            · exact query.lt_of_le compared (isLE_of_compare_lt (first a member))
          have cut : SearchCut query key (head :: tail) (.missing 0) :=
            .missing [] (head :: tail) rfl (by simp) above
          simpa [binarySearchBy, compared] using cut

-----------------------------------------------------------------------------------------
-- The finite sorted map
-----------------------------------------------------------------------------------------

/-- Inserts a record, or replaces the value of the record whose key compares equal. -/
def insertRecord (key : K) (value : V) : List (K × V) → List (K × V)
  | [] => [(key, value)]
  | record :: rest =>
      match compare key record.1 with
      | .gt => record :: insertRecord key value rest
      | .eq => (record.1, value) :: rest
      | .lt => (key, value) :: record :: rest

/-- An insertion puts in the new record, under the key stored first, and keeps all records
whose key differs. Witness: induction on the list, following the comparisons.
-/
theorem mem_insertRecord {key : K} {value : V} {records : List (K × V)}
    (sorted : SortedBy Prod.fst records) {record : K × V}
    : record ∈ insertRecord key value records
      ↔ (∃ old ∈ records, compare key old.1 = .eq ∧ record = (old.1, value))
        ∨ (∀ old ∈ records, compare key old.1 ≠ .eq) ∧ record = (key, value)
        ∨ record ∈ records ∧ compare key record.1 ≠ .eq := by
  induction records with
  | nil => simp [insertRecord]
  | cons head tail ih =>
      obtain ⟨first, rest⟩ := SortedBy.cons_iff.mp sorted
      have higher (lower : compare key head.1 ≠ .gt) : ∀ b ∈ tail, compare key b.1 = .lt := by
        intro b member
        cases h : compare key head.1 with
        | lt => exact Std.TransCmp.lt_trans h (first b member)
        | eq => exact Std.TransCmp.lt_of_eq_of_lt h (first b member)
        | gt => exact absurd h lower
      cases compared : compare key head.1 with
      | gt =>
          simp only [insertRecord, compared, List.mem_cons, ih rest]
          constructor
          · rintro (rfl | ⟨old, member, equal, rfl⟩ | ⟨none, rfl⟩ | ⟨member, differs⟩)
            · exact Or.inr (Or.inr ⟨Or.inl rfl, by simp [compared]⟩)
            · exact Or.inl ⟨old, Or.inr member, equal, rfl⟩
            · refine Or.inr (Or.inl ⟨?_, rfl⟩)
              rintro old (rfl | member)
              · simp [compared]
              · exact none old member
            · exact Or.inr (Or.inr ⟨Or.inr member, differs⟩)
          · rintro (⟨old, rfl | member, equal, rfl⟩ | ⟨none, rfl⟩ | ⟨rfl | member, differs⟩)
            · simp [compared] at equal
            · exact Or.inr (Or.inl ⟨old, member, equal, rfl⟩)
            · exact Or.inr (Or.inr (Or.inl ⟨fun old m => none old (Or.inr m), rfl⟩))
            · exact Or.inl rfl
            · exact Or.inr (Or.inr (Or.inr ⟨member, differs⟩))
      | eq =>
          have later := higher (by simp [compared])
          simp only [insertRecord, compared, List.mem_cons]
          constructor
          · rintro (rfl | member)
            · exact Or.inl ⟨head, Or.inl rfl, compared, rfl⟩
            · exact Or.inr (Or.inr ⟨Or.inr member, by simp [later record member]⟩)
          · rintro (⟨old, rfl | member, equal, rfl⟩ | ⟨none, -⟩ | ⟨rfl | member, differs⟩)
            · exact Or.inl rfl
            · simp [later old member] at equal
            · exact absurd compared (none head (Or.inl rfl))
            · exact absurd compared differs
            · exact Or.inr member
      | lt =>
          have later := higher (by simp [compared])
          have differs : ∀ old ∈ head :: tail, compare key old.1 ≠ .eq := by
            intro old member
            rcases List.mem_cons.mp member with rfl | member
            · simp [compared]
            · simp [later old member]
          simp only [insertRecord, compared]
          constructor
          · intro member
            rcases List.mem_cons.mp member with rfl | member
            · exact Or.inr (Or.inl ⟨differs, rfl⟩)
            · exact Or.inr (Or.inr ⟨member, differs record member⟩)
          · rintro (⟨old, member, equal, -⟩ | ⟨-, rfl⟩ | ⟨member, -⟩)
            · exact absurd equal (differs old member)
            · exact List.mem_cons_self
            · exact List.mem_cons_of_mem _ member

/-- An insertion keeps the records sorted, by induction on the list. -/
theorem sortedBy_insertRecord {key : K} {value : V} {records : List (K × V)}
    (sorted : SortedBy Prod.fst records)
    : SortedBy Prod.fst (insertRecord key value records) := by
  induction records with
  | nil => exact List.pairwise_singleton _ _
  | cons head tail ih =>
      obtain ⟨first, rest⟩ := SortedBy.cons_iff.mp sorted
      cases compared : compare key head.1 with
      | gt =>
          simp only [insertRecord, compared]
          refine SortedBy.cons_iff.mpr ⟨?_, ih rest⟩
          intro record member
          rcases (mem_insertRecord rest).mp member with
            ⟨old, old_mem, -, rfl⟩ | ⟨-, rfl⟩ | ⟨old_mem, -⟩
          · exact first old old_mem
          · exact Std.OrientedCmp.lt_of_gt compared
          · exact first record old_mem
      | eq =>
          simp only [insertRecord, compared]
          exact SortedBy.cons_iff.mpr ⟨first, rest⟩
      | lt =>
          simp only [insertRecord, compared]
          refine SortedBy.cons_iff.mpr ⟨?_, sorted⟩
          intro record member
          rcases List.mem_cons.mp member with rfl | member
          · exact compared
          · exact Std.TransCmp.lt_trans compared (first record member)

/-- A finite map kept as its records in strictly increasing key order. -/
structure SortedMap (K : Type u) [TotalOrd K] (V : Type v) where
  records : List (K × V)
  sorted : SortedBy Prod.fst records

namespace SortedMap

/-- Two maps with the same records are equal. -/
theorem ext_records {left right : SortedMap K V}
    (same : ∀ record, record ∈ left.records ↔ record ∈ right.records)
    : left = right := by
  cases left
  cases right
  simpa using SortedBy.ext (by assumption) (by assumption) same

/-- The empty map. -/
def empty : SortedMap K V := ⟨[], List.Pairwise.nil⟩

/-- The record whose key equals the query. -/
def find? (map : SortedMap K V) (query : Query K) : Option (K × V) :=
  map.records.find? (fun record => query.cmp record.1 = .eq)

/-- Inserts a record; the key object of an equal record stays. -/
def insert (map : SortedMap K V) (key : K) (value : V) : SortedMap K V :=
  ⟨insertRecord key value map.records, sortedBy_insertRecord map.sorted⟩

/-- Removes the record whose key equals the query. -/
def erase (map : SortedMap K V) (query : Query K) : SortedMap K V :=
  ⟨map.records.filter (fun record => query.cmp record.1 ≠ .eq), map.sorted.filter _⟩

/-- Applies `write` to the value of the record whose key equals the query. -/
def modify (map : SortedMap K V) (query : Query K) (write : V → V) : SortedMap K V where
  records :=
    map.records.map
      (fun record => if query.cmp record.1 = .eq then (record.1, write record.2) else record)
  sorted := by
    refine List.pairwise_map.mpr (map.sorted.imp ?_)
    intro a b lt
    split_ifs <;> exact lt

/-- Inserts pairs one by one. -/
def insertAll (map : SortedMap K V) (pairs : List (K × V)) : SortedMap K V :=
  pairs.foldl (fun map pair => map.insert pair.1 pair.2) map

/-- The least record. -/
def first? (map : SortedMap K V) : Option (K × V) := map.records.head?

/-- The greatest record. -/
def last? (map : SortedMap K V) : Option (K × V) := map.records.getLast?

/-- The number of records. -/
def size (map : SortedMap K V) : Nat := map.records.length

/-- The least record above the query, or equal to it when `inclusive`. -/
def least? (map : SortedMap K V) (query : Query K) (inclusive : Bool) : Option (K × V) :=
  map.records.find?
    (fun record => query.cmp record.1 = .lt ∨ inclusive = true ∧ query.cmp record.1 = .eq)

-----------------------------------------------------------------------------------------
-- What the map operations find and change
-----------------------------------------------------------------------------------------

theorem find?_eq_some {map : SortedMap K V} {query : Query K} {record : K × V}
    : map.find? query = some record
      ↔ record ∈ map.records ∧ query.cmp record.1 = .eq := by
  constructor
  · intro h
    exact ⟨List.mem_of_find?_eq_some h, by simpa using List.find?_some h⟩
  · rintro ⟨member, equal⟩
    cases h : map.find? query with
    | none => simpa [equal] using List.find?_eq_none.mp h record member
    | some other =>
        have otherEqual : query.cmp other.1 = .eq := by simpa using List.find?_some h
        have same := map.sorted.eq_of_eq (List.mem_of_find?_eq_some h) member
          (query.eq_of_eq otherEqual equal)
        rw [same]

theorem find?_eq_none {map : SortedMap K V} {query : Query K}
    : map.find? query = none ↔ ∀ record ∈ map.records, query.cmp record.1 ≠ .eq := by
  simp [find?, List.find?_eq_none]

/-- Insertion over a present key replaces that record's value and nothing else. -/
theorem mem_insert_of_found {map : SortedMap K V} {key : K} {value : V} {old record : K × V}
    (found : map.find? (.ofKey key) = some old)
    : record ∈ (map.insert key value).records
      ↔ record = (old.1, value) ∨ record ∈ map.records ∧ compare key record.1 ≠ .eq := by
  obtain ⟨member, equal⟩ := find?_eq_some.mp found
  rw [Query.ofKey_cmp] at equal
  refine (mem_insertRecord map.sorted).trans ⟨?_, ?_⟩
  · rintro (⟨other, otherMember, otherEqual, rfl⟩ | ⟨none, -⟩ | other)
    · have same := map.sorted.eq_of_eq otherMember member
        (Std.TransCmp.eq_trans (Std.OrientedCmp.eq_symm otherEqual) equal)
      exact Or.inl (by rw [same])
    · exact absurd equal (none old member)
    · exact Or.inr other
  · rintro (rfl | other)
    · exact Or.inl ⟨old, member, equal, rfl⟩
    · exact Or.inr (Or.inr other)

/-- Insertion of an absent key adds one record. -/
theorem mem_insert_of_missing {map : SortedMap K V} {key : K} {value : V} {record : K × V}
    (missing : map.find? (.ofKey key) = none)
    : record ∈ (map.insert key value).records
      ↔ record = (key, value) ∨ record ∈ map.records := by
  have differs := find?_eq_none.mp missing
  refine (mem_insertRecord map.sorted).trans ⟨?_, ?_⟩
  · rintro (⟨old, member, equal, -⟩ | ⟨-, rfl⟩ | ⟨member, -⟩)
    · exact absurd equal (differs old member)
    · exact Or.inl rfl
    · exact Or.inr member
  · rintro (rfl | member)
    · exact Or.inr (Or.inl ⟨differs, rfl⟩)
    · exact Or.inr (Or.inr ⟨member, differs record member⟩)

/-- After an insertion the key has the new value, with the key object that was stored first. -/
theorem find?_insert_same (map : SortedMap K V) (key : K) (value : V)
    : (map.insert key value).find? (.ofKey key)
      = some (((map.find? (.ofKey key)).map Prod.fst).getD key, value) := by
  rw [find?_eq_some]
  cases found : map.find? (.ofKey key) with
  | none =>
      exact ⟨(mem_insert_of_missing found).mpr (.inl rfl), Std.ReflOrd.compare_self⟩
  | some old =>
      exact ⟨(mem_insert_of_found found).mpr (.inl rfl), (find?_eq_some.mp found).2⟩

/-- An insertion leaves all other keys as they are. -/
theorem find?_insert_other (map : SortedMap K V) {key : K} (value : V) {query : Query K}
    (differs : query.cmp key ≠ .eq)
    : (map.insert key value).find? query = map.find? query := by
  have same (record : K × V)
      : (map.insert key value).find? query = some record ↔ map.find? query = some record := by
    rw [find?_eq_some, find?_eq_some]
    refine and_congr_left (fun equal => ?_)
    cases found : map.find? (.ofKey key) with
    | none =>
        rw [mem_insert_of_missing found]
        refine or_iff_right ?_
        intro inserted
        rw [inserted] at equal
        exact differs equal
    | some old =>
        rw [mem_insert_of_found found]
        have equalKey : compare key old.1 = .eq := (find?_eq_some.mp found).2
        refine ⟨?_, fun member => .inr ⟨member, fun sameKey => ?_⟩⟩
        · intro member
          cases member with
          | inl replaced =>
              rw [replaced] at equal
              exact absurd ((query.cmp_congr equalKey).trans equal) differs
          | inr kept => exact kept.1
        · exact differs ((query.cmp_congr sameKey).trans equal)
  cases found : map.find? query with
  | some record => exact (same record).mpr found
  | none =>
      cases after : (map.insert key value).find? query with
      | none => rfl
      | some record =>
          rw [(same record).mp after] at found
          cases found

theorem mem_erase {map : SortedMap K V} {query : Query K} {record : K × V}
    : record ∈ (map.erase query).records
      ↔ record ∈ map.records ∧ query.cmp record.1 ≠ .eq := by
  simp [erase]

theorem mem_modify {map : SortedMap K V} {query : Query K} {write : V → V} {record : K × V}
    : record ∈ (map.modify query write).records
      ↔ (∃ old ∈ map.records, query.cmp old.1 = .eq ∧ record = (old.1, write old.2))
        ∨ record ∈ map.records ∧ query.cmp record.1 ≠ .eq := by
  simp only [modify, List.mem_map]
  constructor
  · rintro ⟨old, member, rfl⟩
    split_ifs with equal
    · exact Or.inl ⟨old, member, equal, rfl⟩
    · exact Or.inr ⟨member, equal⟩
  · rintro (⟨old, member, equal, rfl⟩ | ⟨member, differs⟩)
    · exact ⟨old, member, by simp [equal]⟩
    · exact ⟨record, member, by simp [differs]⟩

end SortedMap

-----------------------------------------------------------------------------------------
-- The map operations at one place of a sorted list
-----------------------------------------------------------------------------------------

/-- Around an element that equals the query, everything compares with the query alike. -/
theorem SortedBy.around {key : α → K} {front back : List α} {item : α}
    (sorted : SortedBy key (front ++ item :: back)) (query : Query K)
    (equal : query.cmp (key item) = .eq)
    : (∀ a ∈ front, query.cmp (key a) = .gt) ∧ ∀ a ∈ back, query.cmp (key a) = .lt := by
  obtain ⟨-, behind, before⟩ := SortedBy.append_iff.mp sorted
  constructor
  · intro a member
    exact query.gt_of_lt_of_eq equal (before a member item List.mem_cons_self)
  · intro a member
    exact query.lt_of_eq_of_lt equal ((SortedBy.cons_iff.mp behind).1 a member)

/-- Insertion at a present key replaces that record in place. -/
theorem insertRecord_replace {front back : List (K × V)} {old : K × V} {key : K} (value : V)
    (sorted : SortedBy Prod.fst (front ++ old :: back)) (equal : compare key old.1 = .eq)
    : insertRecord key value (front ++ old :: back) = front ++ (old.1, value) :: back := by
  have below := (sorted.around (.ofKey key) equal).1
  clear sorted
  induction front with
  | nil => simp [insertRecord, equal]
  | cons head front ih =>
      have greater : compare key head.1 = .gt := below head List.mem_cons_self
      simp [insertRecord, greater, ih (fun a member => below a (List.mem_cons_of_mem _ member))]

/-- Insertion of a new key puts the record where the result is sorted. -/
theorem insertRecord_add {front back : List (K × V)} {key : K} {value : V}
    (sorted : SortedBy Prod.fst (front ++ (key, value) :: back))
    : insertRecord key value (front ++ back) = front ++ (key, value) :: back := by
  obtain ⟨below, above⟩ := sorted.around (.ofKey key) Std.ReflOrd.compare_self
  clear sorted
  induction front with
  | nil =>
      cases back with
      | nil => rfl
      | cons next back =>
          have less : compare key next.1 = .lt := above next List.mem_cons_self
          simp [insertRecord, less]
  | cons head front ih =>
      have greater : compare key head.1 = .gt := below head List.mem_cons_self
      simp [insertRecord, greater, ih (fun a member => below a (List.mem_cons_of_mem _ member))]

namespace SortedMap

variable {map : SortedMap K V} {front back : List (K × V)} {old : K × V}

/-- A present key is found at its place. -/
theorem find?_records (query : Query K) (records : map.records = front ++ old :: back)
    (equal : query.cmp old.1 = .eq)
    : map.find? query = some old :=
  find?_eq_some.mpr ⟨by simp [records], equal⟩

theorem insert_records_replace {key : K} (value : V)
    (records : map.records = front ++ old :: back) (equal : compare key old.1 = .eq)
    : (map.insert key value).records = front ++ (old.1, value) :: back := by
  have replaced : insertRecord key value (front ++ old :: back)
      = front ++ (old.1, value) :: back :=
    insertRecord_replace value (records ▸ map.sorted) equal
  rwa [← records] at replaced

theorem insert_records_add {key : K} {value : V} (records : map.records = front ++ back)
    (sorted : SortedBy Prod.fst (front ++ (key, value) :: back))
    : (map.insert key value).records = front ++ (key, value) :: back := by
  have added := insertRecord_add sorted
  rwa [← records] at added

/-- Erasing a present key removes exactly that record. -/
theorem erase_records {query : Query K} (records : map.records = front ++ old :: back)
    (equal : query.cmp old.1 = .eq)
    : (map.erase query).records = front ++ back := by
  obtain ⟨below, above⟩ := (records ▸ map.sorted).around query equal
  have keep {items : List (K × V)} (differs : ∀ a ∈ items, query.cmp a.1 ≠ .eq)
      : items.filter (fun record => query.cmp record.1 ≠ .eq) = items :=
    List.filter_eq_self.mpr (fun a member => by simpa using differs a member)
  have erased : (front ++ old :: back).filter (fun record => query.cmp record.1 ≠ .eq)
      = front ++ back := by
    rw [List.filter_append, List.filter_cons,
      keep (fun a member => by simp [below a member]),
      keep (fun a member => by simp [above a member])]
    simp [equal]
  rwa [← records] at erased

/-- Erasing or modifying an absent key changes nothing. -/
theorem erase_of_missing {query : Query K} (missing : map.find? query = none)
    : map.erase query = map :=
  ext_records (fun record => by
    rw [mem_erase]
    exact and_iff_left_of_imp (find?_eq_none.mp missing record))

theorem modify_of_missing {query : Query K} {write : V → V} (missing : map.find? query = none)
    : map.modify query write = map :=
  ext_records (fun record => by
    have absent := find?_eq_none.mp missing
    rw [mem_modify]
    constructor
    · rintro (⟨old, member, equal, -⟩ | ⟨member, -⟩)
      · exact absurd equal (absent old member)
      · exact member
    · exact fun member => Or.inr ⟨member, absent record member⟩)

/-- Modifying a present key rewrites exactly that record. -/
theorem modify_records {query : Query K} (write : V → V)
    (records : map.records = front ++ old :: back) (equal : query.cmp old.1 = .eq)
    : (map.modify query write).records = front ++ (old.1, write old.2) :: back := by
  obtain ⟨below, above⟩ := (records ▸ map.sorted).around query equal
  let rewrite (record : K × V) : K × V :=
    if query.cmp record.1 = .eq then (record.1, write record.2) else record
  have keep {items : List (K × V)} (differs : ∀ a ∈ items, query.cmp a.1 ≠ .eq)
      : items.map rewrite = items :=
    (List.map_congr_left (fun a member => if_neg (differs a member))).trans (List.map_id' items)
  have modified : (front ++ old :: back).map rewrite
      = front ++ (old.1, write old.2) :: back := by
    rw [List.map_append, List.map_cons, keep (fun a member => by simp [below a member]),
      keep (fun a member => by simp [above a member])]
    simp [rewrite, equal]
  rwa [← records] at modified

end SortedMap

/-- In a sorted list, `find?` gives the least element that satisfies the predicate. -/
theorem SortedBy.find?_eq_some {key : α → K} {items : List α} (sorted : SortedBy key items)
    {accepts : α → Bool} {item : α} (member : item ∈ items) (accepted : accepts item)
    (least : ∀ other ∈ items, accepts other → (compare (key item) (key other)).isLE)
    : items.find? accepts = some item := by
  induction items with
  | nil => cases member
  | cons head tail ih =>
      obtain ⟨first, rest⟩ := SortedBy.cons_iff.mp sorted
      rcases List.mem_cons.mp member with rfl | later
      · simp [accepted]
      · have rejected : accepts head = false := by
          by_contra found
          have le := least head List.mem_cons_self (by simpa using found)
          exact Std.OrientedCmp.not_isLE_of_lt (first item later) le
        rw [List.find?_cons, rejected]
        exact ih rest later (fun other m => least other (List.mem_cons_of_mem _ m))

/-- In a sorted list, `find?` gives exactly the least element that satisfies the predicate. -/
theorem SortedBy.find?_eq_some_iff {key : α → K} {items : List α} (sorted : SortedBy key items)
    {accepts : α → Bool} {item : α}
    : items.find? accepts = some item
      ↔ item ∈ items
        ∧ accepts item
        ∧ ∀ other ∈ items, accepts other → (compare (key item) (key other)).isLE := by
  constructor
  · intro found
    obtain ⟨accepted, front, back, rfl, rejected⟩ := List.find?_eq_some_iff_append.mp found
    refine ⟨by simp, accepted, ?_⟩
    intro other member accepts'
    cases List.mem_append.mp member with
    | inl before =>
        have refused := rejected other before
        rw [accepts'] at refused
        cases refused
    | inr after =>
        cases List.mem_cons.mp after with
        | inl same => rw [same, Std.ReflOrd.compare_self]; rfl
        | inr later =>
            have behind := (SortedBy.append_iff.mp sorted).2.1
            exact isLE_of_compare_lt ((SortedBy.cons_iff.mp behind).1 other later)
  · intro least
    obtain ⟨member, accepted, lowest⟩ := least
    exact sorted.find?_eq_some member accepted lowest

-----------------------------------------------------------------------------------------
-- Maps key by key
-----------------------------------------------------------------------------------------

namespace SortedMap

variable {map : SortedMap K V} {query : Query K} {key : K} {record : K × V}

/-- A record of the map is what its key finds. -/
theorem find?_of_mem (member : record ∈ map.records)
    : map.find? (.ofKey record.1) = some record :=
  find?_eq_some.mpr ⟨member, Std.ReflOrd.compare_self⟩

/-- Two maps that find the same records are equal. -/
theorem ext_find? {left right : SortedMap K V}
    (same : ∀ key, left.find? (.ofKey key) = right.find? (.ofKey key))
    : left = right := by
  apply ext_records
  intro record
  constructor
  · intro member
    exact (find?_eq_some.mp ((same record.1).symm.trans (find?_of_mem member))).1
  · intro member
    exact (find?_eq_some.mp ((same record.1).trans (find?_of_mem member))).1

theorem find?_erase_same (map : SortedMap K V) (equal : query.cmp key = .eq)
    : (map.erase query).find? (.ofKey key) = none := by
  rw [← Query.eq_ofKey equal]
  refine find?_eq_none.mpr (fun record member => ?_)
  exact (mem_erase.mp member).2

theorem find?_erase_other (map : SortedMap K V) (differs : query.cmp key ≠ .eq)
    : (map.erase query).find? (.ofKey key) = map.find? (.ofKey key) := by
  have keeps {record : K × V} (equal : compare key record.1 = .eq) : query.cmp record.1 ≠ .eq :=
    fun same => differs ((query.cmp_congr equal).trans same)
  cases found : map.find? (.ofKey key) with
  | none =>
      refine find?_eq_none.mpr (fun record member => ?_)
      exact find?_eq_none.mp found record (mem_erase.mp member).1
  | some record =>
      obtain ⟨member, equal⟩ := find?_eq_some.mp found
      exact find?_eq_some.mpr ⟨mem_erase.mpr ⟨member, keeps equal⟩, equal⟩

theorem find?_modify_same (map : SortedMap K V) (write : V → V) (equal : query.cmp key = .eq)
    : (map.modify query write).find? (.ofKey key)
      = (map.find? (.ofKey key)).map (fun record => (record.1, write record.2)) := by
  rw [← Query.eq_ofKey equal]
  cases found : map.find? query with
  | none => rw [modify_of_missing found, found]; rfl
  | some record =>
      obtain ⟨member, same⟩ := find?_eq_some.mp found
      exact find?_eq_some.mpr ⟨mem_modify.mpr (.inl ⟨record, member, same, rfl⟩), same⟩

theorem find?_modify_other (map : SortedMap K V) (write : V → V) (differs : query.cmp key ≠ .eq)
    : (map.modify query write).find? (.ofKey key) = map.find? (.ofKey key) := by
  have keeps {record : K × V} (equal : compare key record.1 = .eq) : query.cmp record.1 ≠ .eq :=
    fun same => differs ((query.cmp_congr equal).trans same)
  cases found : map.find? (.ofKey key) with
  | none =>
      refine find?_eq_none.mpr (fun record member => ?_)
      have absent := find?_eq_none.mp found
      rcases mem_modify.mp member with ⟨old, oldMember, -, rfl⟩ | ⟨oldMember, -⟩
      · exact absent old oldMember
      · exact absent record oldMember
  | some record =>
      obtain ⟨member, equal⟩ := find?_eq_some.mp found
      exact find?_eq_some.mpr ⟨mem_modify.mpr (.inr ⟨member, keeps equal⟩), equal⟩

/-- A record that is found stands somewhere in the list. -/
theorem split_of_find? (found : map.find? query = some record)
    : ∃ front back, map.records = front ++ record :: back :=
  List.append_of_mem (find?_eq_some.mp found).1

theorem size_insert_of_found {value : V} (found : map.find? (.ofKey key) = some record)
    : (map.insert key value).size = map.size := by
  obtain ⟨front, back, records⟩ := split_of_find? found
  rw [size, insert_records_replace value records (find?_eq_some.mp found).2, size, records]
  simp

theorem size_insert_of_missing {value : V} (missing : map.find? (.ofKey key) = none)
    : (map.insert key value).size = map.size + 1 := by
  have differs := find?_eq_none.mp missing
  simp only [Query.ofKey_cmp] at differs
  show (insertRecord key value map.records).length = map.records.length + 1
  generalize map.records = records at differs ⊢
  induction records with
  | nil => rfl
  | cons head tail ih =>
      have rest := ih (fun record member => differs record (List.mem_cons_of_mem head member))
      cases compared : compare key head.1 with
      | gt => simp [insertRecord, compared, rest]
      | eq => exact absurd compared (differs head List.mem_cons_self)
      | lt => simp [insertRecord, compared]

theorem size_erase_of_found (found : map.find? query = some record)
    : (map.erase query).size + 1 = map.size := by
  obtain ⟨front, back, records⟩ := split_of_find? found
  rw [size, erase_records records (find?_eq_some.mp found).2, size, records]
  simp [Nat.add_assoc]

theorem size_modify (map : SortedMap K V) (query : Query K) (write : V → V)
    : (map.modify query write).size = map.size :=
  List.length_map _

/-- The first record is the least one. -/
theorem first?_eq_some
    : map.first? = some record
      ↔ record ∈ map.records ∧ ∀ other ∈ map.records, (compare record.1 other.1).isLE := by
  have head : map.first? = map.records.find? (fun _ => true) := by
    rw [first?]
    cases map.records <;> rfl
  rw [head, map.sorted.find?_eq_some_iff]
  simp

end SortedMap

end Library
