import BLink.Latching.Stages
import BLink.Sections.Preservation

/-! Sections that end under the latch of one leaf.
A section that adds or removes a record, or that returns one, holds the latch of the record's
leaf and no other.
-/

namespace BLink

open Library

variable {K V : Type} [TotalOrd K]

variable {N : Nat} {t t' : Tree K V} {shape : Shape} {pc pc' : Pc K V} {p : PageId}
  {held : List (Latch × Mode)} {latched upgraded : Bool}

/-- The page is a leaf in use. -/
def Tree.IsLeaf (t : Tree K V) (latch : Latch) : Prop :=
  ∃ p entries, latch = .page p ∧ p < t.pages ∧ (t.page p).kind = .leaf entries

/-- The leaves stand in the lowest row. -/
theorem Inv.mem_of_isLeaf (inv : Inv N t shape) (isLeaf : t.IsLeaf (.page p))
    : p ∈ shape.row 0 := by
  obtain ⟨_, entries, same, allocated, kind⟩ := isLeaf
  cases same
  have active : t.Active p := ⟨allocated, by rw [Tree.forward, kind]⟩
  obtain ⟨l, member⟩ := (inv.active_iff p).mp active
  obtain rfl := inv.zero_of_leaf member kind
  exact member

-----------------------------------------------------------------------------------------
-- Records that are added or removed
-----------------------------------------------------------------------------------------

/-- The page in which a section may add or remove a record. -/
def Pc.target : Pc K V → Option PageId
  | .leafWrite _ p | .insertAttempt _ _ p | .removeAttempt _ p => some p
  | _ => none

/-- A section at a leaf latches nothing but the leaf. -/
theorem Stage.held_of_leaf {entries : List (Entry K V)}
    (stage : Stage N t pc held (.act latched)) (target : pc.target = some p)
    (kind : (t.page p).kind = .leaf entries)
    : held = [(.page p, .exclusive)] := by
  have noChild {key : Query K} {child : PageId}
      (tries : (t.page p).childToLatch N key = some child) : False := by
    obtain ⟨_, _, internal, -⟩ := Node.childToLatch_internal tries
    rw [kind] at internal
    cases internal
  have noSiblings {key : Query K} {siblings : PageId × PageId}
      (tries : (t.page p).siblingsToLatch N key = some siblings) : False := by
    obtain ⟨_, _, internal, -⟩ := Node.siblingsToLatch_internal tries
    rw [kind] at internal
    cases internal
  generalize acts : Phase.act latched = phase at stage
  cases stage with
  | first =>
      cases pc with
      | leafWrite | insertAttempt | removeAttempt => cases acts
      | _ => cases target
  | sole sole =>
      cases pc with
      | leafWrite => cases sole; cases target; rfl
      | insertAttempt | removeAttempt => cases sole
      | _ => cases target
  | insertPage | removePage | removeMisses => cases target; rfl
  | insertMisses tries | insertChild tries => cases target; exact (noChild tries).elim
  | removeSiblings tries | removeMissesSecond tries => cases target; exact (noSiblings tries).elim
  | insertTries | removeTries | removeTriesSecond => cases acts
  | _ => cases target

theorem LeafInserts.length {old new : List (Entry K V)} {key : K} {value : V}
    {replaced : Option V} (inserts : LeafInserts old key value new replaced)
    : new.length = old.length ∨ new.length = old.length + 1 := by
  cases inserts with
  | replace split =>
      rw [split]
      exact .inl (by simp)
  | add split =>
      rw [split]
      exact .inr (by simp [Nat.add_assoc])

theorem LeafRemoves.length {old new : List (Entry K V)} {key : Query K} {value : V}
    (removes : LeafRemoves old key new value)
    : new.length + 1 = old.length := by
  cases removes with
  | remove split =>
      rw [split]
      simp [Nat.add_assoc]

/-- A section changes the number of records by one at most, and then in one leaf. -/
theorem Effect.counts (effect : Effect N t shape latched upgraded pc t' pc')
    : t'.len = t.len
      ∨ ∃ p old new,
          pc.target = some p
          ∧ LeafUpdated N t t' p old new
          ∧ (new.length = old.length + 1 ∨ new.length + 1 = old.length) := by
  have inserted {p : PageId} {key : K} {value : V} {old new : List (Entry K V)}
      {replaced : Option V} (target : pc.target = some p)
      (inserts : LeafInserts old key value new replaced) (updated : LeafUpdated N t t' p old new)
      : t'.len = t.len
        ∨ ∃ p old new,
            pc.target = some p
            ∧ LeafUpdated N t t' p old new
            ∧ (new.length = old.length + 1 ∨ new.length + 1 = old.length) := by
    have len := updated.len
    cases inserts.length with
    | inl same => exact .inl (by omega)
    | inr more => exact .inr ⟨p, old, new, target, updated, .inl more⟩
  cases effect with
  | read same => exact .inl (by rw [same])
  | write writes =>
      cases writes with
      | getMutFound owns equal updated =>
          have len := updated.len
          simp only [List.length_append, List.length_cons] at len
          exact .inl (by omega)
      | insertDone owns inserts updated => exact inserted rfl inserts updated
      | removeDone owns removes updated =>
          exact .inr ⟨_, _, _, rfl, updated, .inr removes.length⟩
      | _ => exact .inl rfl
  | insert inserts =>
      cases inserts with
      | done owns inserts updated => exact inserted rfl inserts updated
      | rootSplits grow split => exact .inl (split.len.trans grow.len)
      | split _ split => exact .inl split.len
      | _ => exact .inl rfl
  | remove removes =>
      cases removes with
      | done owns removes updated => exact .inr ⟨_, _, _, rfl, updated, .inr removes.length⟩
      | rootCollapses collapse => exact .inl collapse.len
      | borrowLeft _ shift | borrowRight _ shift => exact .inl shift.len
      | merge _ merge => exact .inl merge.len
      | _ => exact .inl rfl
  | repair repairs => cases repairs <;> exact .inl rfl

/-- The section ends with a record. -/
def Pc.Finds : Pc K V → Prop
  | .done (.entry (some _)) | .candidate _ (some _) => True
  | _ => False

/-- A section that ends with a record has latched the record's leaf alone. -/
theorem Effect.found (effect : Effect N t shape latched upgraded pc t' pc')
    (inv : Inv N t shape) (finds : pc'.Finds)
    : ∃ p mode, pc.soleLatch = some (.page p, mode) ∧ t'.IsLeaf (.page p) := by
  have isLeaf {p : PageId} (member : p ∈ shape.row 0) : t.IsLeaf (.page p) := by
    obtain ⟨entries, kind⟩ := inv.leaf_of_zero member
    exact ⟨p, entries, rfl, inv.allocated member, kind⟩
  cases effect with
  | read same reads =>
      subst same
      cases reads with
      | get owns => exact ⟨_, _, rfl, isLeaf owns.member⟩
      | seekFound member _ _ source =>
          rcases source with ⟨rfl, -⟩ | rfl <;> exact ⟨_, _, rfl, isLeaf member⟩
      | firstFound member => exact ⟨_, _, rfl, isLeaf member⟩
      | lastFound member => exact ⟨_, _, rfl, isLeaf member⟩
      | _ => exact finds.elim
  | write writes =>
      cases writes with
      | @getMutFound _ _ p _ _ _ _ owns _ updated =>
          refine ⟨_, _, rfl, p, _, rfl, ?_, by rw [updated.page]⟩
          rw [updated.pages]
          exact inv.allocated owns.member
      | _ => exact finds.elim
  | insert inserts =>
      cases inserts with
      | @repairSkipped _ _ _ _ target | @repaired _ _ _ _ _ target =>
          cases target <;> exact finds.elim
      | _ => exact finds.elim
  | remove removes =>
      cases removes with
      | @rootStays _ result => cases result <;> exact finds.elim
      | _ => exact finds.elim
  | repair repairs => cases repairs <;> exact finds.elim

/-- A section with a single latch holds it when it acts. -/
theorem Stage.held_of_sole {latch : Latch} {mode : Mode}
    (stage : Stage N t pc held (.act latched)) (sole : pc.soleLatch = some (latch, mode))
    : held = [(latch, mode)] := by
  generalize acts : Phase.act latched = phase at stage
  cases stage with
  | first =>
      rw [Pc.plan_sole sole] at acts
      cases acts
  | sole same => rw [Option.some.inj (sole.symm.trans same)]
  | _ => cases sole

end BLink
