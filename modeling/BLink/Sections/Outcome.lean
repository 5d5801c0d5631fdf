import BLink.Model.Threads
import BLink.Sections.Contents

/-! What each call does to the ordered map, and the section in which it does it.
Every section either leaves the map as it is and its call without a result, or gives the call
the result that the call has on the map of that instant.
-/

namespace BLink

open Library

variable {K V : Type} [TotalOrd K]

/-- The response has the given record of the map, or none. -/
def Response.IsRecord (response : Response K V) (record : Option (K × V)) : Prop :=
  ∃ found, response = .entry found ∧ found.map Entry.record = record

/-- A call of an ordered map with its response: the map before and after it. An iterator's
call depends on the iterator, too, and is described where cursors are.
-/
def Applies : Call K V → SortedMap K V → Response K V → SortedMap K V → Prop
  | .get key, map, response, map' => map' = map ∧ response.IsRecord (map.find? key)
  | .containsKey key, map, response, map' =>
      map' = map ∧ response = .flag (map.find? key).isSome
  | .getMut key write, map, response, map' =>
      map' = map.modify key write ∧ response.IsRecord (map.find? key)
  | .insert key value, map, response, map' =>
      map' = map.insert key value
      ∧ response = .previous ((map.find? (.ofKey key)).map Prod.snd)
  | .remove key, map, response, map' =>
      map' = map.erase key ∧ response = .previous ((map.find? key).map Prod.snd)
  | .firstKeyValue, map, response, map' => map' = map ∧ response.IsRecord map.first?
  | .lastKeyValue, map, response, map' => map' = map ∧ response.IsRecord map.last?
  | .len, map, response, map' => map' = map ∧ response = .count map.size
  | .isEmpty, map, response, map' => map' = map ∧ response = .flag (map.size = 0)
  | .next _, _, _, _ => False

-----------------------------------------------------------------------------------------
-- The call that a program counter belongs to
-----------------------------------------------------------------------------------------

/-- The call that a descent to a leaf serves. -/
def Task.call : Task K V → Call K V
  | .read (.get key) => .get key
  | .read (.containsKey key) => .containsKey key
  | .read (.entryAtOrAfter cursor _ _) => .next cursor
  | .write (.getMut key change) => .getMut key change
  | .write (.tryInsertWithoutSplit key value) => .insert key value
  | .write (.tryRemoveWithoutRebalance key) => .remove key

/-- The call that looks for the first record. -/
def firstCall : Option Nat → Call K V
  | none => .firstKeyValue
  | some cursor => .next cursor

/-- The call that an unfinished program counter serves. -/
def Pc.serves : Pc K V → Option (Call K V)
  | .leafRoot task | .leafRead task _ => some task.call
  | .leafWrite task _ => some (Task.write task).call
  | .seekRight cursor _ _ _ | .candidate cursor _ => some (.next cursor)
  | .leftmostRoot consumer | .leftmostLeaf consumer _ | .firstEntry consumer _ =>
      some (firstCall consumer)
  | .rightmostRoot | .rightmostLeaf _ | .lastEntry _ => some .lastKeyValue
  | .loadLen => some .len
  | .loadIsEmpty => some .isEmpty
  | .splitRootIfFull key value | .insertRoot key value | .insertAttempt key value _
  | .repairSplitBacklink key value _ _ _ _ => some (.insert key value)
  | .shrinkRoot key _ | .removeRoot key | .removeAttempt key _ | .mergeUpgrade key _ _ _
  | .mergeClear key _ _ _ | .mergeWalk key _ _ _ _ => some (.remove key)
  | .done _ | .panicked _ => none

/-- The result that a call already has: a removal keeps it while it shrinks the root. -/
def Pc.result : Pc K V → Option (Response K V)
  | .shrinkRoot _ (some removed) => some (.previous removed)
  | .done response => some response
  | _ => none

/-- What a section does to the map and to its call. Only `last_key_value` gets a result that
is read without a glance at the rest of the map.
-/
inductive Outcome (map : SortedMap K V) (pc : Pc K V) : SortedMap K V → Pc K V → Prop
  | silent {pc'} (same : pc'.result = pc.result)
    (serves : ∀ call ∈ pc'.serves, pc.serves = some call)
    : Outcome map pc map pc'
  | point {call response map' pc'} (serves : pc.serves = some call)
    (before : pc.result = none) (after : pc'.result = some response)
    (rest : ∀ next ∈ pc'.serves, next = call) (applies : Applies call map response map')
    : Outcome map pc map' pc'
  | last {p pc' response} (at' : pc = .lastEntry p) (after : pc' = .done response)
    : Outcome map pc map pc'

namespace Inv

variable {N : Nat} {t : Tree K V} {shape : Shape} {l : Nat} {p : PageId}
  {map : SortedMap K V}

/-- The leftmost page of a level begins its row. -/
theorem row_of_low_none (inv : Inv N t shape) (member : p ∈ shape.row l) (low : t.low p = none)
    : ∃ rest, shape.row l = p :: rest := by
  obtain ⟨separators, tiles⟩ := inv.tiles (inv.le_height member)
  cases row : shape.row l with
  | nil => rw [row] at member; cases member
  | cons first rest =>
      rw [row] at tiles
      have firstLow : t.low first = none := tiles.head_lower
      exact ⟨rest, by rw [inv.eq_of_low_none member (row ▸ List.mem_cons_self) low firstLow]⟩

/-- A page without a right link ends its row. -/
theorem row_of_right_none (inv : Inv N t shape) (member : p ∈ shape.row l)
    (last : (t.page p).right = none)
    : ∃ front, shape.row l = front ++ [p] := by
  obtain ⟨front, back, row, leads⟩ := (inv.linked l).exists_of_mem member
  cases back with
  | nil => exact ⟨front, row⟩
  | cons next back =>
      obtain ⟨link, points, -⟩ := leads
      rw [last] at points
      cases points

/-- Only the root leaf may be empty, and then it is the only leaf. -/
theorem row_of_empty (inv : Inv N t shape) (three : 3 ≤ N) (member : p ∈ shape.row 0)
    (kind : (t.page p).kind = .leaf [])
    : p = t.root ∧ shape.row 0 = [p] := by
  have isRoot : p = t.root := by
    by_contra notRoot
    have minimum := (inv.page 0 p member).minimum notRoot
    rw [kind] at minimum
    simp only [NodeKind.least, NodeKind.size, List.length_nil] at minimum
    omega
  subst p
  rw [inv.level_unique member inv.root_mem]
  exact ⟨rfl, inv.top⟩

/-- The first record of the leftmost leaf is the first of all records. -/
theorem records_head? (inv : Inv N t shape) (three : 3 ≤ N) (member : p ∈ shape.row 0)
    (low : t.low p = none)
    : (t.records shape).head? = (t.entries p).head? := by
  have kind := inv.entries_of_leaf member
  cases entries : t.entries p with
  | nil =>
      rw [entries] at kind
      simp [Tree.records, (inv.row_of_empty three member kind).2, entries]
  | cons entry others =>
      obtain ⟨rest, row⟩ := inv.row_of_low_none member low
      simp [Tree.records, row, entries]

/-- The last record of the rightmost leaf is the last of all records. -/
theorem records_getLast? (inv : Inv N t shape) (three : 3 ≤ N) (member : p ∈ shape.row 0)
    (last : (t.page p).right = none)
    : (t.records shape).getLast? = (t.entries p).getLast? := by
  have kind := inv.entries_of_leaf member
  cases entries : t.entries p with
  | nil =>
      rw [entries] at kind
      simp [Tree.records, (inv.row_of_empty three member kind).2, entries]
  | cons entry others =>
      obtain ⟨front, row⟩ := inv.row_of_right_none member last
      have final := List.getLast?_eq_some_getLast (List.cons_ne_nil entry others)
      simp [Tree.records, row, entries, List.getLast?_append, final]

/-- The first of all records has the least key. -/
theorem isFirst (inv : Inv N t shape) : t.IsFirst (t.records shape).head? := by
  have sorted := inv.records_sorted
  cases records : t.records shape with
  | nil =>
      intro entry stored
      rw [inv.stores_iff, records] at stored
      cases stored
  | cons first others =>
      rw [records] at sorted
      refine ⟨inv.stores_iff.mpr (by simp [records]), fun other stored => ?_⟩
      rw [inv.stores_iff, records] at stored
      rcases List.mem_cons.mp stored with rfl | later
      · exact Std.ReflCmp.isLE_rfl
      · exact isLE_of_compare_lt ((SortedBy.cons_iff.mp sorted).1 other later)

/-- The last of all records has the greatest key. -/
theorem isLast (inv : Inv N t shape) : t.IsLast (t.records shape).getLast? := by
  have sorted := inv.records_sorted
  rcases List.eq_nil_or_concat (t.records shape) with records | ⟨others, last, records⟩
  · rw [records]
    intro entry stored
    rw [inv.stores_iff, records] at stored
    cases stored
  · rw [List.concat_eq_append] at records
    rw [records] at sorted ⊢
    rw [List.getLast?_append, List.getLast?_singleton, Option.some_or]
    refine ⟨inv.stores_iff.mpr (by simp [records]), fun other stored => ?_⟩
    rw [inv.stores_iff, records] at stored
    rcases List.mem_append.mp stored with earlier | here
    · exact isLE_of_compare_lt
        ((SortedBy.append_iff.mp sorted).2.2 other earlier last (List.mem_singleton_self _))
    · obtain rfl := List.mem_singleton.mp here
      exact Std.ReflCmp.isLE_rfl

end Inv

variable {N : Nat} {t t' : Tree K V} {shape : Shape} {upgraded : Bool} {pc pc' : Pc K V}
  {map : SortedMap K V}

theorem Reads.outcome (reads : Reads t shape pc pc') (inv : Inv N t shape) (three : 3 ≤ N)
    (ok : PcOk t shape pc) (rep : Represents t shape map)
    : Outcome map pc map pc' := by
  cases reads with
  | get owns =>
      exact .point rfl rfl rfl (by rintro _ ⟨⟩) ⟨rfl, _, rfl, (inv.find?_eq owns rep).symm⟩
  | containsKey owns =>
      refine .point rfl rfl rfl (by rintro _ ⟨⟩) ⟨rfl, ?_⟩
      rw [inv.find?_eq owns rep, Option.isSome_map]
  | @firstFound consumer p entries member kind stop =>
      cases consumer with
      | some cursor => exact .silent rfl (by rintro _ ⟨⟩; rfl)
      | none =>
          obtain ⟨s, inRow, low, resolves⟩ := ok
          obtain rfl := resolves.eq_of_settled (inv.active member).2
          have first := inv.records_head? three member low
          refine .point rfl rfl rfl (by rintro _ ⟨⟩) ⟨rfl, _, rfl, ?_⟩
          rw [SortedMap.first?, rep, List.head?_map, first, Tree.entries, kind]
          rfl
  | loadLen =>
      refine .point rfl rfl rfl (by rintro _ ⟨⟩) ⟨rfl, ?_⟩
      rw [SortedMap.size, rep, List.length_map, inv.count]
  | loadIsEmpty =>
      refine .point rfl rfl rfl (by rintro _ ⟨⟩) ⟨rfl, ?_⟩
      rw [SortedMap.size, rep, List.length_map, inv.count]
  | lastFound _ _ => exact .last rfl rfl
  | seekFound _ _ _ source =>
      rcases source with ⟨rfl, -⟩ | rfl <;> exact .silent rfl (by rintro _ ⟨⟩; rfl)
  | seekNext _ _ _ _ _ _ _ source =>
      rcases source with ⟨rfl, -⟩ | rfl <;> exact .silent rfl (by rintro _ ⟨⟩; rfl)
  | seekEnd _ _ _ _ source =>
      rcases source with ⟨rfl, -⟩ | rfl <;> exact .silent rfl (by rintro _ ⟨⟩; rfl)
  | _ => exact .silent rfl (by rintro _ ⟨⟩; rfl)

theorem Writes.outcome (writes : Writes N t shape pc t' pc') (inv : Inv N t shape)
    (rep : Represents t shape map)
    : ∃ map', Represents t' shape map' ∧ Outcome map pc map' pc' := by
  cases writes with
  | getMutMissing owns missing =>
      have absent := inv.find?_eq owns rep
      rw [missing] at absent
      exact ⟨map, rep, .point rfl rfl rfl (by rintro _ ⟨⟩)
        ⟨(SortedMap.modify_of_missing absent).symm, none, rfl, absent.symm⟩⟩
  | getMutFound owns equal updated =>
      obtain ⟨next, found⟩ := rep.modify inv owns.member equal updated
      exact ⟨_, next, .point rfl rfl rfl (by rintro _ ⟨⟩) ⟨rfl, _, rfl, found.symm⟩⟩
  | insertDone owns inserts updated =>
      obtain ⟨next, result⟩ := rep.insert inv owns inserts updated
      exact ⟨_, next, .point rfl rfl rfl (by rintro _ ⟨⟩) ⟨rfl, by rw [result]⟩⟩
  | removeMissing owns missing =>
      have absent := inv.find?_eq owns rep
      rw [missing] at absent
      exact ⟨map, rep, .point rfl rfl rfl (by rintro _ ⟨⟩)
        ⟨(SortedMap.erase_of_missing absent).symm, by rw [absent]; rfl⟩⟩
  | removeDone owns removes updated =>
      obtain ⟨next, result⟩ := rep.erase inv owns removes updated
      exact ⟨_, next, .point rfl rfl rfl (by rintro _ ⟨⟩) ⟨rfl, by rw [result]⟩⟩
  | retry | insertFull | removeStructural => exact ⟨map, rep, .silent rfl (by rintro _ ⟨⟩; rfl)⟩

end BLink
