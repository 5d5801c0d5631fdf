import BLink.Runs.Iteration
import BLink.Runs.LastRecord

/-! What the calls of a single thread find.
Nothing changes between the sections of a lookup, so that the leaf which a search leaves holds
no record that the search is for, and the rightmost leaf is still the last one.
-/

namespace BLink

open Library

variable {K V : Type} [TotalOrd K]

variable {N : Nat} {t t' : Tree K V} {shape : Shape} {p q next : PageId} {key : Query K}
  {latched inclusive upgraded : Bool} {pc pc' : Pc K V} {map : SortedMap K V}

-----------------------------------------------------------------------------------------
-- Searches from leaf to leaf
-----------------------------------------------------------------------------------------

/-- The least record of the map that a lookup may come back with. -/
def Seek.least (map : SortedMap K V) : Seek K → Option (K × V)
  | .exhausted => none
  | .firstEntry => map.first?
  | .entryAtOrAfter key inclusive => map.least? key inclusive

theorem Represents.least?_eq (rep : Represents t shape map)
    : map.least? key inclusive = (seek (t.records shape) key inclusive).map Entry.record := by
  rw [SortedMap.least?, rep, List.find?_map]
  rfl

/-- No leaf left of the one that `p` leads to has a record that the search is for. -/
def Passed (t : Tree K V) (shape : Shape) (key : Query K) (inclusive : Bool) (p : PageId)
    : Prop :=
  ∃ front s back,
    shape.row 0 = front ++ s :: back
    ∧ Resolves t.forward p s
    ∧ seek (front.flatMap t.entries) key inclusive = none

/-- Where a search looks at a leaf, it has passed all leaves to its left. -/
def PassedTo (t : Tree K V) (shape : Shape) (key : Query K) (inclusive : Bool) (p : PageId)
    : Prop :=
  ∃ front back,
    shape.row 0 = front ++ p :: back ∧ seek (front.flatMap t.entries) key inclusive = none

theorem seek_append (front back : List (Entry K V))
    : seek (front ++ back) key inclusive
      = (seek front key inclusive).or (seek back key inclusive) :=
  List.find?_append

theorem Passed.to (passed : Passed t shape key inclusive p) (active : t.forward p = none)
    : PassedTo t shape key inclusive p := by
  obtain ⟨front, s, back, row, resolves, nothing⟩ := passed
  obtain rfl := resolves.eq_of_settled active
  exact ⟨front, back, row, nothing⟩

/-- The leaf that owns the key is where the search begins. -/
theorem PassedTo.of_owner (inv : Inv N t shape) (member : p ∈ shape.row 0)
    (covers : Covers (t.low p) (t.high p) key)
    : PassedTo t shape key inclusive p := by
  obtain ⟨separators, tiles⟩ := inv.tiles (Nat.zero_le _)
  obtain ⟨front, back, row⟩ := List.append_of_mem member
  refine ⟨front, back, row, List.find?_eq_none.mpr ?_⟩
  intro entry stored
  obtain ⟨q, inFront, inside⟩ := List.mem_flatMap.mp stored
  have before : Precedes t.low t.high q p := by
    have pairwise := tiles.pairwise
    rw [row] at pairwise
    exact (List.pairwise_append.mp pairwise).2.2 q inFront p List.mem_cons_self
  obtain ⟨last, ends, lowest, begins, le⟩ := before
  have below : entry.key < lowest :=
    lt_of_lt_of_le ((inv.within (row ▸ List.mem_append_left _ inFront) inside).2 last ends) le
  have notLower := covers.1 lowest begins
  have notLess : key.cmp entry.key.key ≠ .lt :=
    fun less => notLower (key.lt_of_le less (isLE_of_compare_lt below))
  have notEqual : key.cmp entry.key.key ≠ .eq :=
    fun equal => notLower (key.lt_of_eq_of_lt equal below)
  simp [notLess, notEqual]

section

variable (passed : PassedTo t shape key inclusive p) (inv : Inv N t shape)
  {entries : List (Entry K V)} (kind : (t.page p).kind = .leaf entries)

include passed inv kind

omit inv in
/-- What a search finds in a leaf is what there is to be found. -/
theorem PassedTo.found {entry : Entry K V} (found : seek entries key inclusive = some entry)
    : seek (t.records shape) key inclusive = some entry := by
  obtain ⟨front, back, row, nothing⟩ := passed
  have here : t.entries p = entries := by
    rw [Tree.entries, kind]
    rfl
  rw [Tree.records, row, List.flatMap_append, List.flatMap_cons, seek_append, nothing,
    Option.none_or, here, seek_append, found, Option.some_or]

/-- A leaf where nothing is found is passed. -/
theorem PassedTo.onward (nothing : seek entries key inclusive = none)
    (points : (t.page p).right = some next)
    : Passed t shape key inclusive next := by
  obtain ⟨front, back, row, before⟩ := passed
  have here : t.entries p = entries := by
    rw [Tree.entries, kind]
    rfl
  have linked := inv.linked 0
  rw [row] at linked
  have leads := (linked_append_iff.mp linked).2.1
  cases back with
  | nil =>
      have last : (t.page p).right = none := leads
      rw [last] at points
      cases points
  | cons successor rest =>
      obtain ⟨link, points', resolves⟩ := leads
      obtain rfl := Option.some.inj (points.symm.trans points')
      refine ⟨front ++ [p], successor, rest, by simp [row], resolves, ?_⟩
      rw [List.flatMap_append, seek_append, before, Option.none_or, List.flatMap_singleton, here,
        nothing]

/-- A search that ends at the last leaf has nothing to find. -/
theorem PassedTo.ends (nothing : seek entries key inclusive = none) (last : t.high p = none)
    : seek (t.records shape) key inclusive = none := by
  obtain ⟨front, back, row, before⟩ := passed
  have here : t.entries p = entries := by
    rw [Tree.entries, kind]
    rfl
  obtain ⟨separators, tiles⟩ := inv.tiles (Nat.zero_le _)
  rw [row] at tiles
  have final : back = [] := by
    cases tiles.upper_cases with
    | inl ends => exact ends.1
    | inr more =>
        obtain ⟨_, _, _, _, bound, _⟩ := more
        rw [last] at bound
        cases bound
  rw [Tree.records, row, final, List.flatMap_append, List.flatMap_singleton, seek_append, before,
    Option.none_or, here, nothing]

end

-----------------------------------------------------------------------------------------
-- Sections of the only call
-----------------------------------------------------------------------------------------

/-- What a lookup knows at its place while nothing else runs. -/
def Pc.Sole (t : Tree K V) (shape : Shape) : Pc K V → Prop
  | .seekRight _ key inclusive p => Passed t shape key inclusive p
  | .lastEntry p => p ∈ shape.row 0 ∧ (t.page p).right = none
  | _ => True

/-- A search looks at a leaf where it has passed all leaves to its left. -/
theorem Pc.Sole.passedTo {cursor : Nat} (sole : pc.Sole t shape) (inv : Inv N t shape)
    (member : p ∈ shape.row 0)
    (source
      : pc = .leafRead (.read (.entryAtOrAfter cursor key inclusive)) p
          ∧ Covers (t.low p) (t.high p) key
        ∨ pc = .seekRight cursor key inclusive p)
    : PassedTo t shape key inclusive p := by
  cases source with
  | inl descent => exact .of_owner inv member descent.2
  | inr search =>
      subst search
      exact Passed.to sole (inv.active member).2

theorem Reads.sole (reads : Reads t shape pc pc') (inv : Inv N t shape)
    (sole : pc.Sole t shape)
    : pc'.Sole t shape := by
  cases reads with
  | seekNext member kind nothing points _ _ _ source =>
      exact (sole.passedTo inv member source).onward inv kind nothing points
  | seekForward retired =>
      obtain ⟨front, s, back, row, resolves, nothing⟩ := sole
      exact ⟨front, s, back, row, resolves.of_forward retired, nothing⟩
  | rightmostFound member last => exact ⟨member, last⟩
  | lastForward retired =>
      rw [(inv.active sole.1).2] at retired
      cases retired
  | @firstFound consumer => cases consumer <;> trivial
  | _ => trivial

theorem Effect.sole (effect : Effect N t shape latched upgraded pc t' pc') (inv : Inv N t shape)
    (sole : pc.Sole t shape) {shape' : Shape}
    (same : t' = t → shape' = shape)
    : pc'.Sole t' shape' := by
  cases effect with
  | read unchanged reads =>
      obtain rfl := same unchanged
      rw [unchanged]
      exact reads.sole inv sole
  | write writes => cases writes <;> trivial
  | insert inserts =>
      cases inserts with
      | @repairSkipped _ _ _ _ target | @repaired _ _ _ _ _ target => cases target <;> trivial
      | _ => trivial
  | remove removes =>
      cases removes with
      | @rootStays _ result => cases result <;> trivial
      | _ => trivial
  | repair repairs => cases repairs <;> trivial

/-- The candidate of a lookup is the least record that it may come back with. -/
theorem Effect.candidate_least {cursor : Nat} {sought : Seek K} {found : Option (Entry K V)}
    (effect : Effect N t shape latched upgraded pc t' (.candidate cursor found))
    (inv : Inv N t shape) (three : 3 ≤ N) (ok : PcOk t shape pc) (sole : pc.Sole t shape)
    (rep : Represents t shape map) (isSeek : pc.seek = some (cursor, sought))
    : found.map Entry.record = sought.least map := by
  cases effect with
  | read same reads =>
      generalize isCandidate : Pc.candidate cursor found = pc' at reads
      cases reads with
      | @seekFound _ key inclusive p _ _ _ member kind isFound source =>
          cases isCandidate
          have all := (sole.passedTo inv member source).found kind isFound
          have isKey : sought = .entryAtOrAfter key inclusive := by
            rcases source with ⟨rfl, -⟩ | rfl <;> cases isSeek <;> rfl
          rw [isKey, Seek.least, rep.least?_eq, all]
      | @seekEnd _ key inclusive p _ _ member kind nothing last source =>
          cases isCandidate
          have all := (sole.passedTo inv member source).ends inv kind nothing last
          have isKey : sought = .entryAtOrAfter key inclusive := by
            rcases source with ⟨rfl, -⟩ | rfl <;> cases isSeek <;> rfl
          rw [isKey, Seek.least, rep.least?_eq, all]
      | @firstFound consumer p entries member kind stop =>
          cases consumer with
          | none => cases isCandidate
          | some other =>
              cases isCandidate
              cases isSeek
              obtain ⟨s, inRow, low, resolves⟩ := ok
              obtain rfl := resolves.eq_of_settled (inv.active member).2
              have first := inv.records_head? three member low
              rw [Seek.least, SortedMap.first?, rep, List.head?_map, first, Tree.entries, kind]
              rfl
      | _ => cases isCandidate
  | write writes => cases writes
  | insert inserts =>
      generalize isCandidate : Pc.candidate cursor found = pc' at inserts
      cases inserts with
      | @repairSkipped _ _ _ _ target | @repaired _ _ _ _ _ target =>
          cases target <;> cases isCandidate
      | _ => cases isCandidate
  | remove removes =>
      generalize isCandidate : Pc.candidate cursor found = pc' at removes
      cases removes with
      | @rootStays _ result => cases result <;> cases isCandidate
      | _ => cases isCandidate
  | repair repairs => cases repairs

/-- `last_key_value` reads the greatest record. -/
theorem Effect.last_greatest {response : Response K V}
    (effect : Effect N t shape latched upgraded pc t' (.done response)) (inv : Inv N t shape)
    (three : 3 ≤ N) (sole : pc.Sole t shape) (rep : Represents t shape map)
    (serves : pc.serves = some .lastKeyValue)
    : response.IsRecord map.last? := by
  obtain ⟨p, member, isLast, rfl⟩ := effect.last_of_done serves rfl
  rw [isLast] at sole
  refine ⟨_, rfl, ?_⟩
  rw [SortedMap.last?, rep, List.getLast?_map, inv.records_getLast? three member sole.2]

end BLink
