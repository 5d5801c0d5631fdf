import BLink.Library.Elements
import BLink.Sequential.Refinement
import BLink.Sequential.Sessions

/-! The relations between sets that are not shared.
A set is a map without values. A relation of two sets compares their lengths, walks along one
of them and looks its values up in the other one.
-/

namespace BLink

open Library

variable {ι T : Type} [TotalOrd T] [DecidableEq ι]

-----------------------------------------------------------------------------------------
-- `BLinkSet::is_disjoint`, `is_subset`, `is_superset` and `eq`
-----------------------------------------------------------------------------------------

/-- A call on one of several sets. -/
def Calls (N : PageCapacity) (sets : ι → System Unit T Unit) (i : ι) (call : Call T Unit)
    (response : Response T Unit) (sets' : ι → System Unit T Unit)
    : Prop :=
  ∃ s', Performs N (sets i) call response s' ∧ sets' = Function.update sets i s'

/-- The set with a new iterator, which takes the place of cursor `c`. -/
def System.iter {K V : Type} [TotalOrd K] (s : System Unit K V) (c : Nat) : System Unit K V :=
  s.setThread () {
    s.thread () with
    cursors := Function.update (s.thread ()).cursors c .newIter
  }

/-- `for value in iterated`: the loop returns `false` at the first value of which `contains` on
`probed` says `verdict`.
-/
inductive Scans (N : PageCapacity) (iterated probed : ι) (c : Nat) (verdict : Bool)
    : (ι → System Unit T Unit) → Bool → (ι → System Unit T Unit) → Prop
  | ends {sets sets'} (next : Calls N sets iterated (.next c) (.entry none) sets')
    : Scans N iterated probed c verdict sets true sets'
  | stops {sets middle sets' value}
    (next : Calls N sets iterated (.next c) (.entry (some value)) middle)
    (contains : Calls N middle probed (.containsKey (.ofKey value.key.key)) (.flag verdict) sets')
    : Scans N iterated probed c verdict sets false sets'
  | onward {sets middle later sets' value result}
    (next : Calls N sets iterated (.next c) (.entry (some value)) middle)
    (contains : Calls N middle probed (.containsKey (.ofKey value.key.key)) (.flag !verdict) later)
    (rest : Scans N iterated probed c verdict later result sets')
    : Scans N iterated probed c verdict sets result sets'

/-- `self.is_disjoint(other)`: it walks along the smaller set. -/
inductive IsDisjoint (N : PageCapacity) (sets : ι → System Unit T Unit) (self other : ι)
    : Bool → (ι → System Unit T Unit) → Prop
  | same {result sets'} (identical : self = other)
    (isEmpty : Calls N sets self .isEmpty (.flag result) sets')
    : IsDisjoint N sets self other result sets'
  | selfSmaller {length otherLength measured sets₂ c result sets'} (distinct : self ≠ other)
    (selfLen : Calls N sets self .len (.count length) measured)
    (otherLen : Calls N measured other .len (.count otherLength) sets₂)
    (shorter : length ≤ otherLength)
    (scans
      : Scans N self other c true (Function.update sets₂ self ((sets₂ self).iter c)) result sets')
    : IsDisjoint N sets self other result sets'
  | otherSmaller {length otherLength measured sets₂ c result sets'} (distinct : self ≠ other)
    (selfLen : Calls N sets self .len (.count length) measured)
    (otherLen : Calls N measured other .len (.count otherLength) sets₂)
    (longer : ¬ length ≤ otherLength)
    (scans
      : Scans N other self c true (Function.update sets₂ other ((sets₂ other).iter c)) result sets')
    : IsDisjoint N sets self other result sets'

/-- `self.is_subset(other)`. -/
inductive IsSubset (N : PageCapacity) (sets : ι → System Unit T Unit) (self other : ι)
    : Bool → (ι → System Unit T Unit) → Prop
  | same (identical : self = other) : IsSubset N sets self other true sets
  | longer {length otherLength measured sets'} (distinct : self ≠ other)
    (selfLen : Calls N sets self .len (.count length) measured)
    (otherLen : Calls N measured other .len (.count otherLength) sets')
    (longer : otherLength < length)
    : IsSubset N sets self other false sets'
  | scans {length otherLength measured sets₂ c result sets'} (distinct : self ≠ other)
    (selfLen : Calls N sets self .len (.count length) measured)
    (otherLen : Calls N measured other .len (.count otherLength) sets₂)
    (fits : ¬ otherLength < length)
    (scans
      : Scans N self other c false (Function.update sets₂ self ((sets₂ self).iter c)) result sets')
    : IsSubset N sets self other result sets'

/-- `self.is_superset(other)`. -/
def IsSuperset (N : PageCapacity) (sets : ι → System Unit T Unit) (self other : ι)
    : Bool → (ι → System Unit T Unit) → Prop :=
  IsSubset N sets other self

/-- `self == other`. -/
inductive IsEqual (N : PageCapacity) (sets : ι → System Unit T Unit) (self other : ι)
    : Bool → (ι → System Unit T Unit) → Prop
  | same (identical : self = other) : IsEqual N sets self other true sets
  | lengths {length otherLength measured sets'} (distinct : self ≠ other)
    (selfLen : Calls N sets self .len (.count length) measured)
    (otherLen : Calls N measured other .len (.count otherLength) sets')
    (differ : length ≠ otherLength)
    : IsEqual N sets self other false sets'
  | subset {length measured sets₂ result sets'} (distinct : self ≠ other)
    (selfLen : Calls N sets self .len (.count length) measured)
    (otherLen : Calls N measured other .len (.count length) sets₂)
    (subset : IsSubset N sets₂ self other result sets')
    : IsEqual N sets self other result sets'

-----------------------------------------------------------------------------------------
-- Calls that do not change a set
-----------------------------------------------------------------------------------------

variable {N : PageCapacity} {sets sets' : ι → System Unit T Unit} {maps : ι → SortedMap T Unit}
  {i self other iterated probed : ι} {c : Nat} {verdict result : Bool} {call : Call T Unit}
  {response : Response T Unit}

/-- No call is under way on any of the sets, whose elements are the keys of the maps. -/
def Rests (N : PageCapacity) (sets : ι → System Unit T Unit) (maps : ι → SortedMap T Unit)
    : Prop :=
  ∀ i, ∃ cursors, Resting N (sets i) (maps i) cursors

theorem Rests.update {s' : System Unit T Unit} {cursors : Nat → Cursor T}
    (rests : Rests N sets maps) (resting : Resting N s' (maps i) cursors)
    : Rests N (Function.update sets i s') maps := by
  intro j
  by_cases here : j = i
  · subst here
    rw [Function.update_self]
    exact ⟨cursors, resting⟩
  · rw [Function.update_of_ne here]
    exact rests j

/-- The call only looks at the set, and moves no cursor. -/
def Call.Looks : Call T Unit → Prop
  | .containsKey _ | .len | .isEmpty => True
  | _ => False

theorem Applies.of_looks {map map' : SortedMap T Unit} (looks : call.Looks)
    (applies : Applies call map response map')
    : map' = map := by
  cases call with
  | containsKey | len | isEmpty => exact applies.1
  | _ => exact looks.elim

/-- A call that only looks answers from the set's map, and leaves all sets as they are. -/
theorem Rests.calls (rests : Rests N sets maps) (looks : call.Looks)
    (calls : Calls N sets i call response sets')
    : Rests N sets' maps ∧ Applies call (maps i) response (maps i) := by
  obtain ⟨s', performs, rfl⟩ := calls
  obtain ⟨cursors, resting⟩ := rests i
  obtain ⟨map', cursors', resting', answers⟩ := resting.performs performs
  have applies : Applies call (maps i) response map' := by
    cases call with
    | containsKey | len | isEmpty => exact answers.1
    | _ => exact looks.elim
  obtain rfl := applies.of_looks looks
  exact ⟨rests.update resting', applies⟩

theorem Rests.exists_calls (rests : Rests N sets maps) (i : ι) (call : Call T Unit)
    : ∃ response sets', Calls N sets i call response sets' := by
  obtain ⟨cursors, resting⟩ := rests i
  obtain ⟨response, s', performs⟩ := resting.exists_performs call
  exact ⟨response, _, s', performs, rfl⟩

theorem Rests.len {length : Nat} (rests : Rests N sets maps)
    (calls : Calls N sets i .len (.count length) sets')
    : Rests N sets' maps ∧ length = (maps i).size := by
  have looks : (Call.len : Call T Unit).Looks := trivial
  obtain ⟨rests', -, response⟩ := rests.calls looks calls
  cases response
  exact ⟨rests', rfl⟩

theorem Rests.exists_len (rests : Rests N sets maps) (i : ι)
    : ∃ sets', Calls N sets i .len (.count (maps i).size) sets' ∧ Rests N sets' maps := by
  obtain ⟨response, sets', calls⟩ := rests.exists_calls i .len
  have looks : (Call.len : Call T Unit).Looks := trivial
  obtain ⟨rests', -, rfl⟩ := rests.calls looks calls
  exact ⟨sets', calls, rests'⟩

theorem Rests.contains {key : T} {found : Bool} (rests : Rests N sets maps)
    (calls : Calls N sets i (.containsKey (.ofKey key)) (.flag found) sets')
    : Rests N sets' maps ∧ (found = true ↔ key ∈ (maps i).elements) := by
  have looks : (Call.containsKey (.ofKey key) : Call T Unit).Looks := trivial
  obtain ⟨rests', -, response⟩ := rests.calls looks calls
  cases response
  exact ⟨rests', SortedMap.mem_elements.symm⟩

theorem Rests.exists_contains (rests : Rests N sets maps) (i : ι) (key : T)
    : ∃ found sets', Calls N sets i (.containsKey (.ofKey key)) (.flag found) sets' := by
  obtain ⟨response, sets', calls⟩ := rests.exists_calls i (.containsKey (.ofKey key))
  have looks : (Call.containsKey (.ofKey key) : Call T Unit).Looks := trivial
  obtain ⟨-, -, rfl⟩ := rests.calls looks calls
  exact ⟨_, sets', calls⟩

-----------------------------------------------------------------------------------------
-- The loop
-----------------------------------------------------------------------------------------

/-- An iterator's walk that has come to the given records. -/
def Walk.after (front : List (T × Unit)) : Walk T where
  start := .unbounded
  stop := .unbounded
  last := front.getLast?.map Prod.fst
  ended := false

theorem Resting.iter {K V : Type} [TotalOrd K] {s : System Unit K V} {map : SortedMap K V}
    {cursors : Nat → Cursor K} (resting : Resting N s map cursors) (c : Nat)
    : Resting N (s.iter c) map (Function.update cursors c .newIter) := by
  obtain ⟨idle, shape, serving⟩ := resting
  obtain ⟨rep, same⟩ := serving.idle idle
  have kept : ((s.iter c).thread ()).status = .idle := by
    rw [System.iter, System.setThread_same]
    exact idle
  have moved : ((s.iter c).thread ()).cursors = Function.update cursors c .newIter := by
    rw [System.iter, System.setThread_same, same]
  have ready (cursor : Nat) : (Function.update cursors c Cursor.newIter cursor).Ready := by
    by_cases here : cursor = c
    · subst here
      rw [Function.update_self]
      exact Cursor.Created.iter.ready
    · rw [Function.update_of_ne here]
      exact serving.ready cursor
  refine ⟨kept, shape, {
    ok := ?_
    ordered := serving.ordered
    ready := ready
    idle := fun _ => ⟨rep, moved⟩
    running := fun call pc running => by
      rw [kept] at running
      cases running
  }⟩
  exact serving.ok.setThread (.idle idle (fun cursor => by rw [same]; exact ready cursor))

/-- One turn of the loop: the iterator comes to the next record of the set, or ends. -/
theorem Resting.next {s s' : System Unit T Unit} {map : SortedMap T Unit}
    {cursors : Nat → Cursor T} {front back : List (T × Unit)} (resting : Resting N s map cursors)
    (records : map.records = front ++ back) (walk : (cursors c).toWalk = .after front)
    (performs : Performs N s (.next c) response s')
    : ∃ cursors',
        Resting N s' map cursors'
        ∧ ((∃ entry rest,
            back = entry.record :: rest
            ∧ response = .entry (some entry)
            ∧ (cursors' c).toWalk = .after (front ++ [entry.record]))
          ∨ back = [] ∧ response = .entry none) := by
  obtain ⟨map', cursors', resting', rfl, result, cursor', nexts, rfl, rfl⟩ :=
    resting.performs performs
  refine ⟨_, resting', ?_⟩
  have inside : (Walk.after []).inside map' = front ++ back := by
    rw [Walk.inside, records]
    exact List.filter_eq_self.mpr (fun _ _ => decide_eq_true ⟨trivial, trivial⟩)
  cases Walk.nexts_cases inside walk nexts.walks with
  | inl comes =>
      obtain ⟨head, rest, isBack, isHead, walk'⟩ := comes
      obtain ⟨entry, rfl, rfl⟩ := Option.map_eq_some_iff.mp isHead
      refine .inl ⟨entry, rest, isBack, rfl, ?_⟩
      rw [Function.update_self, walk']
      simp only [Walk.after, List.getLast?_append, List.getLast?_singleton, Option.some_or,
        Option.map_some]
  | inr ends =>
      obtain ⟨isBack, isNone, -⟩ := ends
      obtain rfl := Option.map_eq_none_iff.mp isNone
      exact .inr ⟨isBack, rfl⟩

/-- The loop returns `true` just if `contains` never says `verdict`: by induction on its turns.
-/
theorem Scans.result_iff (scans : Scans N iterated probed c verdict sets result sets')
    (distinct : iterated ≠ probed) (rests : Rests N sets maps) {cursors : Nat → Cursor T}
    {front back : List (T × Unit)} (resting : Resting N (sets iterated) (maps iterated) cursors)
    (records : (maps iterated).records = front ++ back)
    (walk : (cursors c).toWalk = .after front)
    : (result = true
        ↔ ∀ record ∈ back, record.1 ∈ (maps probed).elements ↔ verdict = false)
      ∧ Rests N sets' maps := by
  induction scans generalizing front back cursors with
  | ends next =>
      obtain ⟨s', performs, rfl⟩ := next
      obtain ⟨cursors', resting', turn⟩ := resting.next records walk performs
      refine ⟨?_, rests.update resting'⟩
      rcases turn with ⟨_, _, _, found, _⟩ | ⟨rfl, -⟩
      · cases found
      · exact iff_of_true rfl nofun
  | @stops sets _ _ value next contains =>
      obtain ⟨s', performs, rfl⟩ := next
      obtain ⟨cursors', resting', turn⟩ := resting.next records walk performs
      obtain ⟨rests', found⟩ := (rests.update resting').contains contains
      refine ⟨?_, rests'⟩
      rcases turn with ⟨entry, rest, rfl, isEntry, -⟩ | ⟨-, ends⟩
      · cases isEntry
        refine iff_of_false nofun (fun all => ?_)
        have first := all value.record List.mem_cons_self
        have inside : value.record.1 ∈ (maps probed).elements ↔ verdict = true := found.symm
        rw [inside] at first
        cases verdict <;> simp at first
      · cases ends
  | @onward sets _ later _ value result next contains rest ih =>
      obtain ⟨s', performs, rfl⟩ := next
      obtain ⟨cursors', resting', turn⟩ := resting.next records walk performs
      obtain ⟨rests', found⟩ := (rests.update resting').contains contains
      have same : later iterated = s' := by
        obtain ⟨probedState, -, rfl⟩ := contains
        rw [Function.update_of_ne distinct, Function.update_self]
      rcases turn with ⟨entry, back, rfl, isEntry, walk'⟩ | ⟨-, ends⟩
      · cases isEntry
        have split : (maps iterated).records = (front ++ [value.record]) ++ back := by
          rw [records, List.append_assoc]
          rfl
        obtain ⟨later, rests''⟩ := ih rests' (same ▸ resting') split walk'
        refine ⟨?_, rests''⟩
        rw [later, List.forall_mem_cons]
        have inside : value.record.1 ∈ (maps probed).elements ↔ verdict = false := by
          have isFound : value.record.1 ∈ (maps probed).elements ↔ (!verdict) = true := found.symm
          rw [isFound]
          simp
        exact (and_iff_right inside).symm
      · cases ends

/-- The loop comes to its end: by induction on the records that it has not come to. -/
theorem Rests.exists_scans (distinct : iterated ≠ probed) (verdict : Bool)
    (rests : Rests N sets maps) {cursors : Nat → Cursor T} {front back : List (T × Unit)}
    (resting : Resting N (sets iterated) (maps iterated) cursors)
    (records : (maps iterated).records = front ++ back)
    (walk : (cursors c).toWalk = .after front)
    : ∃ result sets', Scans N iterated probed c verdict sets result sets' := by
  induction back generalizing sets front cursors with
  | nil =>
      obtain ⟨response, s', performs⟩ := resting.exists_performs (.next c)
      obtain ⟨cursors', resting', turn⟩ := resting.next records walk performs
      rcases turn with ⟨_, _, none, -⟩ | ⟨-, rfl⟩
      · cases none
      · exact ⟨true, _, .ends ⟨s', performs, rfl⟩⟩
  | cons record back ih =>
      obtain ⟨response, s', performs⟩ := resting.exists_performs (.next c)
      obtain ⟨cursors', resting', turn⟩ := resting.next records walk performs
      have next : Calls N sets iterated (.next c) response _ := ⟨s', performs, rfl⟩
      rcases turn with ⟨entry, rest, isBack, rfl, walk'⟩ | ⟨none, -⟩
      · cases isBack
        obtain ⟨found, later, contains⟩ :=
          (rests.update resting').exists_contains probed entry.key.key
        have rests' := ((rests.update resting').contains contains).1
        by_cases stops : found = verdict
        · subst stops
          exact ⟨false, _, .stops next contains⟩
        · have onward : found = !verdict := by cases found <;> cases verdict <;> simp at stops ⊢
          subst onward
          have same : later iterated = s' := by
            obtain ⟨probedState, -, rfl⟩ := contains
            rw [Function.update_of_ne distinct, Function.update_self]
          have split : (maps iterated).records = (front ++ [entry.record]) ++ back := by
            rw [records, List.append_assoc]
            rfl
          obtain ⟨result, sets', scans⟩ := ih rests' (same ▸ resting') split walk'
          exact ⟨result, sets', .onward next contains scans⟩
      · cases none

/-- The loop begins with an iterator that has come to no record. -/
theorem Rests.iter (rests : Rests N sets maps) (i : ι) (c : Nat)
    : Rests N (Function.update sets i ((sets i).iter c)) maps
      ∧ ∃ cursors,
          Resting N (Function.update sets i ((sets i).iter c) i) (maps i) cursors
          ∧ (cursors c).toWalk = Walk.after [] := by
  obtain ⟨cursors, resting⟩ := rests i
  refine ⟨rests.update (resting.iter c), Function.update cursors c .newIter, ?_, ?_⟩
  · rw [Function.update_self]
    exact resting.iter c
  · rw [Function.update_self]
    rfl

/-- The loop with its new iterator: which value `contains` on `probed` may not say. -/
theorem Rests.scans (distinct : iterated ≠ probed) (rests : Rests N sets maps)
    (scans
      : Scans N iterated probed c verdict
          (Function.update sets iterated ((sets iterated).iter c)) result sets')
    : (result = true
        ↔ ∀ record ∈ (maps iterated).records,
            record.1 ∈ (maps probed).elements ↔ verdict = false)
      ∧ Rests N sets' maps := by
  obtain ⟨rests', cursors, resting, begins⟩ := rests.iter iterated c
  exact scans.result_iff distinct rests' resting (List.nil_append _).symm begins

theorem Rests.exists_loop (distinct : iterated ≠ probed) (verdict : Bool)
    (rests : Rests N sets maps) (c : Nat)
    : ∃ result sets',
        Scans N iterated probed c verdict
          (Function.update sets iterated ((sets iterated).iter c)) result sets' := by
  obtain ⟨rests', cursors, resting, begins⟩ := rests.iter iterated c
  exact rests'.exists_scans distinct verdict resting (List.nil_append _).symm begins

-----------------------------------------------------------------------------------------
-- The relations
-----------------------------------------------------------------------------------------

theorem IsSubset.result_iff (subset : IsSubset N sets self other result sets')
    (rests : Rests N sets maps)
    : (result = true ↔ (maps self).elements ⊆ (maps other).elements) ∧ Rests N sets' maps := by
  cases subset with
  | same identical =>
      subst identical
      exact ⟨iff_of_true rfl Set.Subset.rfl, rests⟩
  | longer distinct selfLen otherLen longer =>
      obtain ⟨rests₁, rfl⟩ := rests.len selfLen
      obtain ⟨rests₂, rfl⟩ := rests₁.len otherLen
      refine ⟨iff_of_false nofun (fun subset => ?_), rests₂⟩
      exact absurd (SortedMap.size_le_of_subset subset) (Nat.not_le.mpr longer)
  | scans distinct selfLen otherLen fits scans =>
      obtain ⟨rests₁, rfl⟩ := rests.len selfLen
      obtain ⟨rests₂, rfl⟩ := rests₁.len otherLen
      obtain ⟨exact', rests'⟩ := rests₂.scans distinct scans
      refine ⟨exact'.trans ?_, rests'⟩
      rw [SortedMap.elements_subset_iff]
      exact forall₂_congr (fun _ _ => iff_true_right rfl)

theorem IsDisjoint.result_iff (disjoint : IsDisjoint N sets self other result sets')
    (rests : Rests N sets maps)
    : (result = true ↔ Disjoint (maps self).elements (maps other).elements)
      ∧ Rests N sets' maps := by
  have loop {iterated probed : ι}
      : (∀ record ∈ (maps iterated).records,
          record.1 ∈ (maps probed).elements ↔ true = false)
        ↔ Disjoint (maps iterated).elements (maps probed).elements := by
    rw [SortedMap.elements_disjoint_iff]
    exact forall₂_congr (fun _ _ => iff_false_right nofun)
  cases disjoint with
  | same identical isEmpty =>
      subst identical
      have looks : (Call.isEmpty : Call T Unit).Looks := trivial
      obtain ⟨rests', -, response⟩ := rests.calls looks isEmpty
      cases response
      exact ⟨decide_eq_true_iff.trans SortedMap.elements_disjoint_self.symm, rests'⟩
  | selfSmaller distinct selfLen otherLen _ scans =>
      obtain ⟨rests₁, -⟩ := rests.len selfLen
      obtain ⟨rests₂, -⟩ := rests₁.len otherLen
      obtain ⟨exact', rests'⟩ := rests₂.scans distinct scans
      exact ⟨exact'.trans loop, rests'⟩
  | otherSmaller distinct selfLen otherLen _ scans =>
      obtain ⟨rests₁, -⟩ := rests.len selfLen
      obtain ⟨rests₂, -⟩ := rests₁.len otherLen
      obtain ⟨exact', rests'⟩ := rests₂.scans (Ne.symm distinct) scans
      exact ⟨exact'.trans (loop.trans disjoint_comm), rests'⟩

theorem IsEqual.result_iff (equal : IsEqual N sets self other result sets')
    (rests : Rests N sets maps)
    : (result = true ↔ (maps self).elements = (maps other).elements) ∧ Rests N sets' maps := by
  cases equal with
  | same identical =>
      subst identical
      exact ⟨iff_of_true rfl rfl, rests⟩
  | lengths distinct selfLen otherLen differ =>
      obtain ⟨rests₁, rfl⟩ := rests.len selfLen
      obtain ⟨rests₂, rfl⟩ := rests₁.len otherLen
      exact ⟨iff_of_false nofun (fun same => differ (SortedMap.size_eq_of_elements_eq same)), rests₂⟩
  | subset distinct selfLen otherLen subset =>
      obtain ⟨rests₁, rfl⟩ := rests.len selfLen
      obtain ⟨rests₂, sizes⟩ := rests₁.len otherLen
      obtain ⟨exact', rests'⟩ := subset.result_iff rests₂
      refine ⟨exact'.trans ⟨fun inside => ?_, fun same => same.le⟩, rests'⟩
      exact SortedMap.elements_eq_of_subset inside sizes.ge

theorem Rests.exists_isSubset (rests : Rests N sets maps) (self other : ι)
    : ∃ result sets', IsSubset N sets self other result sets' := by
  by_cases identical : self = other
  · exact ⟨true, sets, .same identical⟩
  · obtain ⟨measured, selfLen, rests₁⟩ := rests.exists_len self
    obtain ⟨sets₂, otherLen, rests₂⟩ := rests₁.exists_len other
    by_cases longer : (maps other).size < (maps self).size
    · exact ⟨false, sets₂, .longer identical selfLen otherLen longer⟩
    · obtain ⟨result, sets', scans⟩ := rests₂.exists_loop identical false 0
      exact ⟨result, sets', .scans identical selfLen otherLen longer scans⟩

theorem Rests.exists_isDisjoint (rests : Rests N sets maps) (self other : ι)
    : ∃ result sets', IsDisjoint N sets self other result sets' := by
  by_cases identical : self = other
  · obtain ⟨response, sets', isEmpty⟩ := rests.exists_calls self .isEmpty
    have looks : (Call.isEmpty : Call T Unit).Looks := trivial
    obtain ⟨-, -, rfl⟩ := rests.calls looks isEmpty
    exact ⟨_, sets', .same identical isEmpty⟩
  · obtain ⟨measured, selfLen, rests₁⟩ := rests.exists_len self
    obtain ⟨sets₂, otherLen, rests₂⟩ := rests₁.exists_len other
    by_cases shorter : (maps self).size ≤ (maps other).size
    · obtain ⟨result, sets', scans⟩ := rests₂.exists_loop identical true 0
      exact ⟨result, sets', .selfSmaller identical selfLen otherLen shorter scans⟩
    · obtain ⟨result, sets', scans⟩ := rests₂.exists_loop (Ne.symm identical) true 0
      exact ⟨result, sets', .otherSmaller identical selfLen otherLen shorter scans⟩

theorem Rests.exists_isEqual (rests : Rests N sets maps) (self other : ι)
    : ∃ result sets', IsEqual N sets self other result sets' := by
  by_cases identical : self = other
  · exact ⟨true, sets, .same identical⟩
  · obtain ⟨measured, selfLen, rests₁⟩ := rests.exists_len self
    obtain ⟨sets₂, otherLen, rests₂⟩ := rests₁.exists_len other
    by_cases sizes : (maps self).size = (maps other).size
    · obtain ⟨result, sets', subset⟩ := rests₂.exists_isSubset self other
      exact ⟨result, sets', .subset identical selfLen (sizes ▸ otherLen) subset⟩
    · exact ⟨false, sets₂, .lengths identical selfLen otherLen sizes⟩

/-- The elements of a set: the keys that equal a stored one. -/
def System.elements (s : System Unit T Unit) : Set T := {key | s.tree.StoresKey key}

theorem Resting.elements {s : System Unit T Unit} {map : SortedMap T Unit}
    {cursors : Nat → Cursor T} (resting : Resting N s map cursors)
    : s.elements = map.elements := by
  obtain ⟨idle, shape, serving⟩ := resting
  obtain ⟨rep, -⟩ := serving.idle idle
  ext key
  constructor
  · intro stored
    obtain ⟨entry, stores, equal⟩ := stored
    refine ⟨entry.record, ?_, Std.OrientedCmp.eq_symm equal⟩
    rw [rep]
    exact List.mem_map_of_mem (serving.ok.inv.stores_iff.mp stores)
  · intro inside
    obtain ⟨record, member, equal⟩ := inside
    rw [rep] at member
    obtain ⟨entry, stored, rfl⟩ := List.mem_map.mp member
    exact ⟨entry, serving.ok.inv.stores_iff.mpr stored, Std.OrientedCmp.eq_symm equal⟩

omit [DecidableEq ι] in
theorem exists_rests (reached : ∀ i, (histories T Unit N).Reachable (sets i))
    : ∃ maps, Rests N sets maps ∧ ∀ i, (sets i).elements = (maps i).elements := by
  have exists_resting (i : ι) : ∃ map cursors, Resting N (sets i) map cursors := by
    obtain ⟨map, -, cursors, resting⟩ := (sortedMaps_simulate N).reachable (reached i)
    exact ⟨map, cursors, resting⟩
  choose maps cursors resting using exists_resting
  exact ⟨maps, fun i => ⟨cursors i, resting i⟩, fun i => (resting i).elements⟩

/-- For any two sets, each with a history of its own, and for one set compared with itself:
`is_subset`, `is_superset`, `is_disjoint` and `==` come to an end, and return whether the
elements of the one are a subset or a superset of those of the other, disjoint from them, or
the same.
-/
theorem set_relations_exact (sets : ι → System Unit T Unit)
    (reached : ∀ i, (histories T Unit N).Reachable (sets i)) (self other : ι)
    : ((∃ result sets', IsSubset N sets self other result sets')
        ∧ ∀ result sets',
            IsSubset N sets self other result sets'
            → (result = true ↔ (sets self).elements ⊆ (sets other).elements))
      ∧ ((∃ result sets', IsSuperset N sets self other result sets')
        ∧ ∀ result sets',
            IsSuperset N sets self other result sets'
            → (result = true ↔ (sets other).elements ⊆ (sets self).elements))
      ∧ ((∃ result sets', IsDisjoint N sets self other result sets')
        ∧ ∀ result sets',
            IsDisjoint N sets self other result sets'
            → (result = true ↔ Disjoint (sets self).elements (sets other).elements))
      ∧ ((∃ result sets', IsEqual N sets self other result sets')
        ∧ ∀ result sets',
            IsEqual N sets self other result sets'
            → (result = true ↔ (sets self).elements = (sets other).elements)) := by
  obtain ⟨maps, rests, elements⟩ := exists_rests reached
  rw [elements self, elements other]
  exact ⟨
    ⟨rests.exists_isSubset self other, fun _ _ subset => (subset.result_iff rests).1⟩,
    ⟨rests.exists_isSubset other self, fun _ _ subset => (IsSubset.result_iff subset rests).1⟩,
    ⟨rests.exists_isDisjoint self other, fun _ _ disjoint => (disjoint.result_iff rests).1⟩,
    ⟨rests.exists_isEqual self other, fun _ _ equal => (equal.result_iff rests).1⟩⟩

/-- Two sets with the same elements, inserted in opposite orders. -/
theorem set_relations_exact_reversed
    : ∃ sets sets' : Bool → System Unit Nat Unit,
        (∀ i, (histories Nat Unit .smallest).Reachable (sets i))
        ∧ IsEqual .smallest sets false true true sets' := by
  have renewed : Renewed .smallest (System.fresh : System Unit Nat Unit) := System.fresh_renewed _
  have resting : Resting .smallest (System.fresh : System Unit Nat Unit) .empty _ :=
    .initial renewed.initial
  have inserted (pairs : List (Nat × Unit))
      : ∃ s : System Unit Nat Unit,
          (histories Nat Unit .smallest).Reachable s
          ∧ s.elements = (SortedMap.empty.insertAll pairs).elements := by
    obtain ⟨s, inserts⟩ := resting.exists_insertsAll pairs
    have step : (histories Nat Unit .smallest).step .fresh (.extend pairs, .unit) s :=
      .extend rfl inserts
    exact ⟨s, (TransitionSystem.Reachable.of_init renewed.initial).step step,
      (resting.insertsAll inserts).elements⟩
  obtain ⟨ascending, reached, elements⟩ := inserted [(1, ()), (2, ()), (3, ()), (4, ())]
  obtain ⟨descending, reached', elements'⟩ := inserted [(4, ()), (3, ()), (2, ()), (1, ())]
  let sets (i : Bool) : System Unit Nat Unit := if i then descending else ascending
  have all (i : Bool) : (histories Nat Unit .smallest).Reachable (sets i) := by
    cases i with
    | false => exact reached
    | true => exact reached'
  obtain ⟨-, -, -, ⟨result, sets', equal⟩, exact'⟩ := set_relations_exact sets all false true
  have isTrue : result = true := (exact' result sets' equal).mpr (elements.trans elements'.symm)
  exact ⟨sets, sets', all, isTrue ▸ equal⟩

end BLink
