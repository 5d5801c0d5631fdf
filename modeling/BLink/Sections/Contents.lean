import BLink.Sections.Effects

/-! The ordered map that a tree stands for.
The leaves partition the key space in order, so their records form one sorted list; what a
section does to the one leaf that owns a key, it does to the map.
-/

namespace BLink

open Library

variable {K V : Type}

/-- An entry as a record of the map. -/
def Entry.record (entry : Entry K V) : K × V := (entry.key.key, entry.value)

@[simp] theorem Entry.record_fst (entry : Entry K V) : entry.record.1 = entry.key.key := rfl

@[simp] theorem Entry.record_snd (entry : Entry K V) : entry.record.2 = entry.value := rfl

/-- The record is stored in some page in use. -/
def Tree.Stores (t : Tree K V) (entry : Entry K V) : Prop :=
  ∃ p, t.Active p ∧ entry ∈ t.entries p

theorem Tree.mem_records {t : Tree K V} {shape : Shape} {entry : Entry K V}
    : entry ∈ t.records shape ↔ ∃ p ∈ shape.row 0, entry ∈ t.entries p :=
  List.mem_flatMap

variable [TotalOrd K]

/-- A record with the key is stored. -/
def Tree.StoresKey (t : Tree K V) (key : K) : Prop :=
  ∃ entry, t.Stores entry ∧ compare entry.key.key key = .eq

/-- The stored record with the least key, or none when no record is stored. -/
def Tree.IsFirst (t : Tree K V) : Option (Entry K V) → Prop
  | some entry =>
      t.Stores entry
      ∧ ∀ other, t.Stores other → (compare entry.key.key other.key.key).isLE
  | none => ∀ entry, ¬ t.Stores entry

/-- The stored record with the greatest key, or none when no record is stored. -/
def Tree.IsLast (t : Tree K V) : Option (Entry K V) → Prop
  | some entry =>
      t.Stores entry
      ∧ ∀ other, t.Stores other → (compare other.key.key entry.key.key).isLE
  | none => ∀ entry, ¬ t.Stores entry

/-- The leaves of the tree hold the records of the map. -/
def Represents (t : Tree K V) (shape : Shape) (map : SortedMap K V) : Prop :=
  map.records = (t.records shape).map Entry.record

theorem lookup_eq_none {entries : List (Entry K V)} {key : Query K}
    : lookup entries key = none ↔ ∀ entry ∈ entries, key.cmp entry.key.key ≠ .eq := by
  simp [lookup, List.find?_eq_none]

theorem Owns.mem_records {t : Tree K V} {shape : Shape} {p : PageId} {key : Query K}
    {entries : List (Entry K V)} {entry : Entry K V} (owns : Owns t shape p key entries)
    (inside : entry ∈ entries)
    : entry ∈ t.records shape := by
  refine Tree.mem_records.mpr ⟨p, owns.member, ?_⟩
  rwa [Tree.entries, owns.kind]

namespace Inv

variable {N : Nat} {t : Tree K V} {shape : Shape} {p q : PageId} {entry : Entry K V}

theorem entries_of_leaf (inv : Inv N t shape) (member : p ∈ shape.row 0)
    : (t.page p).kind = .leaf (t.entries p) := by
  obtain ⟨entries, kind⟩ := inv.leaf_of_zero member
  rw [Tree.entries, kind]
  rfl

theorem within (inv : Inv N t shape) (member : p ∈ shape.row 0) (inside : entry ∈ t.entries p)
    : Within (t.low p) (t.high p) entry.key :=
  (inv.content_leaf member (inv.entries_of_leaf member)).2 entry inside

/-- Only leaves store records. -/
theorem stores_iff (inv : Inv N t shape) : t.Stores entry ↔ entry ∈ t.records shape := by
  rw [Tree.mem_records]
  constructor
  · rintro ⟨p, active, inside⟩
    obtain ⟨l, member⟩ := (inv.active_iff p).mp active
    cases kind : (t.page p).kind with
    | internal keys children => simp [Tree.entries, kind] at inside
    | redirect target => simp [Tree.entries, kind] at inside
    | leaf entries =>
        obtain rfl := inv.zero_of_leaf member kind
        exact ⟨p, member, inside⟩
  · rintro ⟨p, member, inside⟩
    exact ⟨p, inv.active member, inside⟩

/-- Records of a leaf that precedes another one have smaller keys. -/
theorem lt_of_precedes (inv : Inv N t shape) (hp : p ∈ shape.row 0) (hq : q ∈ shape.row 0)
    (precedes : Precedes t.low t.high p q) {a b : Entry K V} (ha : a ∈ t.entries p)
    (hb : b ∈ t.entries q)
    : compare a.key.key b.key.key = .lt := by
  obtain ⟨last, ends, next, begins, le⟩ := precedes
  have below : a.key < last := (inv.within hp ha).2 last ends
  have above : next ≤ b.key := (inv.within hq hb).1 next begins
  exact lt_of_lt_of_le below (le_trans le above)

/-- All records together are sorted. -/
theorem records_sorted (inv : Inv N t shape)
    : SortedBy (fun entry => entry.key.key) (t.records shape) := by
  obtain ⟨separators, tiles⟩ := inv.tiles (Nat.zero_le _)
  refine List.pairwise_flatMap.mpr ⟨?_, tiles.pairwise.imp_of_mem ?_⟩
  · intro p member
    exact (inv.content_leaf member (inv.entries_of_leaf member)).1
  · intro p q hp hq precedes a ha b hb
    exact inv.lt_of_precedes hp hq precedes ha hb

/-- The map that the tree stands for. -/
def map (inv : Inv N t shape) : SortedMap K V where
  records := (t.records shape).map Entry.record
  sorted := List.pairwise_map.mpr inv.records_sorted

theorem represents (inv : Inv N t shape) : Represents t shape inv.map := rfl

/-- A stored record with the sought key lies in the leaf that owns the key. -/
theorem mem_owner (inv : Inv N t shape) {key : Query K} {entries : List (Entry K V)}
    (owns : Owns t shape p key entries) (stored : entry ∈ t.records shape)
    (equal : key.cmp entry.key.key = .eq)
    : entry ∈ entries := by
  obtain ⟨q, member, inside⟩ := Tree.mem_records.mp stored
  obtain rfl := inv.owner_unique owns.member member owns.covers
    (covers_of_within (inv.within member inside) equal)
  rwa [Tree.entries, owns.kind] at inside

/-- Looking a key up in the leaf that owns it looks it up in the map. -/
theorem find?_eq (inv : Inv N t shape) {key : Query K} {entries : List (Entry K V)}
    (owns : Owns t shape p key entries) {map : SortedMap K V} (rep : Represents t shape map)
    : map.find? key = (lookup entries key).map Entry.record := by
  cases found : lookup entries key with
  | some entry =>
      refine SortedMap.find?_eq_some.mpr ⟨?_, by simpa using List.find?_some found⟩
      rw [rep]
      exact List.mem_map_of_mem (owns.mem_records (List.mem_of_find?_eq_some found))
  | none =>
      refine SortedMap.find?_eq_none.mpr (fun record member equal => ?_)
      rw [rep] at member
      obtain ⟨entry, stored, rfl⟩ := List.mem_map.mp member
      have inside := inv.mem_owner owns stored equal
      exact lookup_eq_none.mp found entry inside equal

end Inv

variable {N : Nat} {t t' : Tree K V} {shape : Shape} {p : PageId}
  {entries entries' : List (Entry K V)} {map : SortedMap K V}

/-- What an update of one leaf does to the records of the represented map. -/
theorem Represents.split (rep : Represents t shape map) (inv : Inv N t shape)
    (updated : LeafUpdated N t t' p entries entries') (member : p ∈ shape.row 0)
    : ∃ front back : List (K × V),
        map.records = front ++ (entries.map Entry.record ++ back)
        ∧ ∀ next : SortedMap K V,
            next.records = front ++ (entries'.map Entry.record ++ back)
            ↔ Represents t' shape next := by
  obtain ⟨front, back, records, records'⟩ := updated.records_eq inv member
  refine ⟨front.map Entry.record, back.map Entry.record, ?_, fun next => ?_⟩
  · rw [rep, records, List.map_append, List.map_append]
  · rw [Represents, records', List.map_append, List.map_append]

/-- Inserting into the leaf inserts into the map. -/
theorem Represents.insert (rep : Represents t shape map) (inv : Inv N t shape) {key : K}
    {value : V} {replaced : Option V} (owns : Owns t shape p (.ofKey key) entries)
    (inserts : LeafInserts entries key value entries' replaced)
    (updated : LeafUpdated N t t' p entries entries')
    : Represents t' shape (map.insert key value)
      ∧ replaced = (map.find? (.ofKey key)).map Prod.snd := by
  obtain ⟨front, back, records, result⟩ := rep.split inv updated owns.member
  cases inserts with
  | @replace before after old split equal =>
      have place : map.records
          = (front ++ before.map Entry.record)
            ++ old.record :: (after.map Entry.record ++ back) := by
        simp [records, split]
      refine ⟨(result _).mp ?_, ?_⟩
      · rw [SortedMap.insert_records_replace value place equal]
        simp [Entry.record]
      · rw [SortedMap.find?_records (.ofKey key) place equal]
        rfl
  | @add before after handle split absent =>
      have place : map.records
          = (front ++ before.map Entry.record) ++ (after.map Entry.record ++ back) := by
        simp [records, split]
      have missing : lookup entries (.ofKey key) = none :=
        lookup_eq_none.mpr (by simpa using absent)
      have sorted := (updated.preserves inv owns.member).map.sorted
      have next := (result _).mpr (updated.preserves inv owns.member).represents
      rw [next] at sorted
      refine ⟨(result _).mp ?_, by rw [inv.find?_eq owns rep, missing]; rfl⟩
      rw [SortedMap.insert_records_add place (by simpa [Entry.record] using sorted)]
      simp [Entry.record]

/-- Removing from the leaf removes from the map. -/
theorem Represents.erase (rep : Represents t shape map) (inv : Inv N t shape) {key : Query K}
    {removed : V} (owns : Owns t shape p key entries)
    (removes : LeafRemoves entries key entries' removed)
    (updated : LeafUpdated N t t' p entries entries')
    : Represents t' shape (map.erase key)
      ∧ some removed = (map.find? key).map Prod.snd := by
  obtain ⟨front, back, records, result⟩ := rep.split inv updated owns.member
  cases removes with
  | @remove before after old split equal =>
      have place : map.records
          = (front ++ before.map Entry.record)
            ++ old.record :: (after.map Entry.record ++ back) := by
        simp [records, split]
      refine ⟨(result _).mp ?_, ?_⟩
      · rw [SortedMap.erase_records place equal]
        simp
      · rw [SortedMap.find?_records key place equal]
        rfl

/-- Rewriting a value in the leaf rewrites it in the map. -/
theorem Represents.modify (rep : Represents t shape map) (inv : Inv N t shape)
    {key : Query K} {write : V → V} {before after : List (Entry K V)} {old : Entry K V}
    (member : p ∈ shape.row 0) (equal : key.cmp old.key.key = .eq)
    (updated
      : LeafUpdated N t t' p (before ++ old :: after)
          (before ++ { old with value := write old.value } :: after))
    : Represents t' shape (map.modify key write) ∧ map.find? key = some old.record := by
  obtain ⟨front, back, records, result⟩ := rep.split inv updated member
  have place : map.records
      = (front ++ before.map Entry.record)
        ++ old.record :: (after.map Entry.record ++ back) := by
    simp [records]
  refine ⟨(result _).mp ?_, SortedMap.find?_records key place equal⟩
  rw [SortedMap.modify_records write place equal]
  simp [Entry.record]

end BLink
