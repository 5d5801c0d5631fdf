import BLink.Sections.Outcome
import BLink.Sections.Repair
import BLink.Structure.Root

/-! Every section keeps the structural invariant and all references held elsewhere.
The shape before a section and the shape after it differ by one row at most, or by one level
at the top.
-/

namespace BLink

open Library

variable {K V : Type} [TotalOrd K]

/-- The tree and its shape after a section: they satisfy the invariant, references held
elsewhere stay good, and so is the program counter of the operation that passed the section.
-/
structure Advance (N : Nat) (t : Tree K V) (shape : Shape) (t' : Tree K V) (shape' : Shape)
    (pc' : Pc K V)
    : Prop where
  inv : Inv N t' shape'
  evolves : Evolves t shape t' shape'
  ok : PcOk t' shape' pc'

variable {N : Nat} {t t' : Tree K V} {shape shape' : Shape} {l : Nat} {p q : PageId}
  {latched upgraded : Bool} {pc pc' : Pc K V} {map : SortedMap K V}

theorem Reads.ok (reads : Reads t shape pc pc') (inv : Inv N t shape) (three : 3 ≤ N)
    (ok : PcOk t shape pc)
    : PcOk t shape pc' := by
  have settled {q s : PageId} {l : Nat} (member : q ∈ shape.row l)
      (resolves : Resolves t.forward q s) : s = q :=
    resolves.eq_of_settled (inv.active member).2
  cases reads with
  | leafRoot | rightmostRoot => exact inv.root_active.1
  | descend moves => exact moves.allocated inv
  | exclusive owns => exact inv.allocated owns.member
  | rightmostDescend moves => exact moves.allocated inv
  | seekNext _ _ _ _ inRow resolves _ _ => exact ⟨_, inRow, resolves⟩
  | seekForward retired =>
      obtain ⟨s, member, resolves⟩ := ok
      exact ⟨s, member, resolves.of_forward retired⟩
  | leftmostRoot =>
      exact ⟨_, _, inv.root_mem, inv.root_low, .settled inv.root_active.2⟩
  | leftmostDescend member childMember low =>
      obtain ⟨_, s, _, first, resolves⟩ := ok
      rw [settled member resolves] at first
      exact ⟨_, _, childMember, low.trans first, .settled (inv.active childMember).2⟩
  | leftmostForward retired =>
      obtain ⟨l, s, member, first, resolves⟩ := ok
      exact ⟨l, s, member, first, resolves.of_forward retired⟩
  | leftmostFound member =>
      obtain ⟨_, s, _, first, resolves⟩ := ok
      obtain rfl := settled member resolves
      exact ⟨_, member, first, resolves⟩
  | firstNext member kind points =>
      -- An empty leaf is the only leaf, and has no right link.
      obtain ⟨rfl, -⟩ := inv.row_of_empty three member kind
      rw [inv.root_right] at points
      cases points
  | firstForward retired =>
      obtain ⟨s, member, first, resolves⟩ := ok
      exact ⟨s, member, first, resolves.of_forward retired⟩
  | rightmostFound member => exact ⟨_, member, .settled (inv.active member).2⟩
  | lastForward retired =>
      obtain ⟨s, member, resolves⟩ := ok
      exact ⟨s, member, resolves.of_forward retired⟩
  | @firstFound consumer => cases consumer <;> trivial
  | _ => trivial

-----------------------------------------------------------------------------------------
-- Changes of the tree
-----------------------------------------------------------------------------------------

theorem LeafUpdated.advance {old new : List (Entry K V)}
    (updated : LeafUpdated N t t' p old new) (inv : Inv N t shape) (member : p ∈ shape.row 0)
    (ok : PcOk t' shape pc')
    : Advance N t shape t' shape pc' :=
  ⟨updated.preserves inv member, updated.framed.evolves, ok⟩

theorem Relinked.advance (relinked : Relinked t t' shape) (inv : Inv N t shape)
    (ok : PcOk t' shape pc')
    : Advance N t shape t' shape pc' :=
  ⟨relinked.preserves inv, relinked.framed.evolves, ok⟩

theorem Represents.congr (rep : Represents t shape map)
    (same : t'.records shape' = t.records shape)
    : Represents t' shape' map := by
  rw [Represents, same, rep]

/-- A replacement of siblings leaves the map as it is. -/
theorem Replaced.advance {heir : PageId → PageId} {before old new after : List PageId}
    (replaced : Replaced N t t' shape l q heir before old new after) (inv : Inv N t shape)
    (ok : ∀ shape', PcOk t' shape' pc')
    : ∃ shape',
        Advance N t shape t' shape' pc'
        ∧ ∀ map, Represents t shape map → Represents t' shape' map := by
  obtain ⟨front, back, row, inv', records⟩ := replaced.preserves inv
  exact ⟨_, ⟨inv', replaced.evolves inv row, ok _⟩, fun map rep => rep.congr records⟩

/-- What is to be shown of each section: the shape after it, and its outcome for the map. -/
def Preserved (N : Nat) (t : Tree K V) (shape : Shape) (pc : Pc K V) (t' : Tree K V)
    (pc' : Pc K V)
    : Prop :=
  ∃ shape',
    Advance N t shape t' shape' pc'
    ∧ ∀ map,
        Represents t shape map
        → ∃ map', Represents t' shape' map' ∧ Outcome map pc map' pc'

theorem Reads.preserved (reads : Reads t shape pc pc') (inv : Inv N t shape) (three : 3 ≤ N)
    (ok : PcOk t shape pc)
    : Preserved N t shape pc t pc' :=
  ⟨shape, ⟨inv, .refl t shape, reads.ok inv three ok⟩,
    fun map rep => ⟨map, rep, reads.outcome inv three ok rep⟩⟩

theorem Writes.preserved (writes : Writes N t shape pc t' pc') (inv : Inv N t shape)
    : Preserved N t shape pc t' pc' := by
  refine ⟨shape, ?_, fun map rep => writes.outcome inv rep⟩
  cases writes with
  | getMutFound owns _ updated | insertDone owns _ updated | removeDone owns _ updated =>
      exact updated.advance inv owns.member trivial
  | _ => exact ⟨inv, .refl t shape, trivial⟩

/-- The same of a section that leaves the map and its call's result as they are. -/
theorem preserved_of_silent (same : pc'.result = pc.result)
    (serves : ∀ call ∈ pc'.serves, pc.serves = some call)
    (advance
      : ∃ shape',
          Advance N t shape t' shape' pc'
          ∧ ∀ map, Represents t shape map → Represents t' shape' map)
    : Preserved N t shape pc t' pc' := by
  obtain ⟨shape', advance, keeps⟩ := advance
  exact ⟨shape', advance, fun map rep => ⟨map, keeps map rep, .silent same serves⟩⟩

/-- Nothing changes but the program counter. -/
theorem advance_of_same (inv : Inv N t shape) (ok : PcOk t shape pc')
    : ∃ shape',
        Advance N t shape t shape' pc'
        ∧ ∀ map, Represents t shape map → Represents t shape' map :=
  ⟨shape, ⟨inv, .refl t shape, ok⟩, fun _ rep => rep⟩

theorem Relinked.advances (relinked : Relinked t t' shape) (inv : Inv N t shape)
    (ok : PcOk t' shape pc')
    : ∃ shape',
        Advance N t shape t' shape' pc'
        ∧ ∀ map, Represents t shape map → Represents t' shape' map :=
  ⟨shape, relinked.advance inv ok, fun _ rep => rep.congr relinked.records_eq⟩

theorem insertResume_serves (key : K) (value : V) (target : Option PageId)
    : (insertResume key value target).serves = some (.insert key value)
      ∧ (insertResume key value target).result = none := by
  cases target <;> exact ⟨rfl, rfl⟩

theorem insertResume_ok {key : K} {value : V} {target : Option PageId}
    (allocated : ∀ p ∈ target, p < t.pages)
    : PcOk t shape (insertResume key value target) := by
  cases target with
  | none => trivial
  | some target => exact allocated target rfl

theorem Inserts.preserved (inserts : Inserts N t shape latched pc t' pc') (inv : Inv N t shape)
    (three : 3 ≤ N) (ok : PcOk t shape pc)
    : Preserved N t shape pc t' pc' := by
  cases inserts with
  | rootStays | retry =>
      exact preserved_of_silent rfl (by rintro _ ⟨⟩; rfl) (advance_of_same inv trivial)
  | root =>
      exact preserved_of_silent rfl (by rintro _ ⟨⟩; rfl)
        (advance_of_same inv inv.root_active.1)
  | move moves =>
      exact preserved_of_silent rfl (by rintro _ ⟨⟩; rfl)
        (advance_of_same inv (moves.allocated inv))
  | @rootSplits key value middle t' separator leftKind rightKind grow split =>
      have member : t.pages ∈ (shape.grow t.pages).row (shape.height + 1) := by
        rw [Shape.grow_top]
        exact List.mem_singleton_self _
      have replaced := split.replaced (grow.preserves inv) three member
      have new : t.pages + 1 < t'.pages := by
        rw [split.pages, grow.pages]
        exact Nat.lt_succ_self _
      have ok (shape'' : Shape) : PcOk t' shape''
          (.repairSplitBacklink key value (t.pages + 1) none none [t.root]) :=
        ⟨new, by rintro _ ⟨⟩⟩
      obtain ⟨shape', advance, keeps⟩ := replaced.advance (grow.preserves inv) ok
      refine preserved_of_silent rfl (by rintro _ ⟨⟩; rfl)
        ⟨shape', ⟨advance.inv, (grow.evolves inv).trans advance.evolves, advance.ok⟩, ?_⟩
      exact fun map rep => keeps map (rep.congr (grow.records_eq inv))
  | done owns inserts updated =>
      refine ⟨shape, updated.advance inv owns.member trivial, fun map rep => ?_⟩
      obtain ⟨next, result⟩ := rep.insert inv owns inserts updated
      exact ⟨_, next, .point rfl rfl rfl (by rintro _ ⟨⟩) ⟨rfl, by rw [result]⟩⟩
  | @split key value p c target l t' separator leftKind rightKind front back before after
      member split goes =>
      have childMember : c ∈ shape.row l := inv.child_mem member split.kind (by simp)
      have old : c < t'.pages := by
        rw [split.pages]
        exact Nat.lt_succ_of_lt (inv.allocated childMember)
      have new : t.pages < t'.pages := by
        rw [split.pages]
        exact Nat.lt_succ_self _
      refine preserved_of_silent rfl (by rintro _ ⟨⟩; rfl)
        ((split.replaced inv three member).advance inv (fun _ => ⟨new, ?_⟩))
      rintro p ⟨⟩
      rcases goes with rfl | rfl
      · exact old
      · exact new
  | @repairSkipped key value _ _ target _ stale =>
      obtain ⟨serves, result⟩ := insertResume_serves key value target
      refine preserved_of_silent result ?_ (advance_of_same inv (insertResume_ok ok.2))
      rintro call isCall
      rw [serves] at isCall
      exact isCall
  | @repaired key value _ _ _ target _ _ member points inRow resolves =>
      obtain ⟨serves, result⟩ := insertResume_serves key value target
      refine preserved_of_silent result ?_
        ((Relinked.of_link inv member points resolves).advances inv (insertResume_ok ok.2))
      rintro call isCall
      rw [serves] at isCall
      exact isCall

theorem removeResume_serves (key : Query K) (result : Option (Option V))
    : (∀ call ∈ (removeResume key result).serves, call = .remove key)
      ∧ (removeResume key result).result = result.map .previous := by
  cases result with
  | none => exact ⟨by rintro _ ⟨⟩; rfl, rfl⟩
  | some removed => exact ⟨by rintro _ ⟨⟩, rfl⟩

theorem Removes.preserved (removes : Removes N t shape latched pc t' pc') (inv : Inv N t shape)
    (three : 3 ≤ N)
    : Preserved N t shape pc t' pc' := by
  cases removes with
  | @rootStays key result separated =>
      obtain ⟨serves, same⟩ := removeResume_serves key result
      refine preserved_of_silent ?_ ?_ (advance_of_same inv ?_)
      · rw [same]
        cases result <;> rfl
      · rintro call isCall
        rw [serves call isCall]
        rfl
      · cases result <;> trivial
  | rootCollapses collapse =>
      refine preserved_of_silent ?_ (by rintro _ ⟨⟩; rfl)
        ⟨_, ⟨collapse.preserves inv, collapse.evolves inv, trivial⟩,
          fun map rep => rep.congr (collapse.records_eq inv)⟩
      rfl
  | root =>
      exact preserved_of_silent rfl (by rintro _ ⟨⟩; rfl)
        (advance_of_same inv inv.root_active.1)
  | retry => exact preserved_of_silent rfl (by rintro _ ⟨⟩; rfl) (advance_of_same inv trivial)
  | move moves =>
      exact preserved_of_silent rfl (by rintro _ ⟨⟩; rfl)
        (advance_of_same inv (moves.allocated inv))
  | missing owns missing =>
      refine ⟨shape, ⟨inv, .refl t shape, trivial⟩, fun map rep => ?_⟩
      have absent := inv.find?_eq owns rep
      rw [missing] at absent
      exact ⟨map, rep, .point rfl rfl rfl (by rintro _ ⟨⟩; rfl)
        ⟨(SortedMap.erase_of_missing absent).symm, by rw [absent]; rfl⟩⟩
  | done owns removes updated =>
      refine ⟨shape, updated.advance inv owns.member trivial, fun map rep => ?_⟩
      obtain ⟨next, result⟩ := rep.erase inv owns removes updated
      exact ⟨_, next, .point rfl rfl rfl (by rintro _ ⟨⟩; rfl) ⟨rfl, by rw [result]⟩⟩
  | @borrowLeft key p l first second _ _ _ _ _ _ _ _ _ _ member shift grows =>
      have child : second < t.pages :=
        inv.allocated (inv.child_mem member shift.kind (by simp))
      refine preserved_of_silent rfl (by rintro _ ⟨⟩; rfl)
        ((shift.replaced inv three member).advance inv (fun _ => ?_))
      rw [PcOk, shift.pages]
      exact child
  | @borrowRight key p l first second _ _ _ _ _ _ _ _ _ _ member shift grows branch =>
      have child : first < t.pages :=
        inv.allocated (inv.child_mem member shift.kind (by simp))
      refine preserved_of_silent rfl (by rintro _ ⟨⟩; rfl)
        ((shift.replaced inv three member).advance inv (fun _ => ?_))
      rw [PcOk, shift.pages]
      exact child
  | @merge key p l first second separator whole front back before after t' member merge =>
      have firstOld : first < t.pages :=
        inv.allocated (inv.child_mem member merge.kind (by simp))
      have secondOld : second < t.pages :=
        inv.allocated (inv.child_mem member merge.kind (by simp))
      refine preserved_of_silent rfl (by rintro _ ⟨⟩; rfl)
        ((merge.replaced inv member).advance inv (fun _ => ?_))
      exact {
        retired := by rw [Tree.forward_eq, merge.left]; rfl
        predecessor := fun q isPrevious => by
          rw [merge.pages]
          exact inv.previous first q firstOld isPrevious
        target := by rwa [merge.pages]
      }

-----------------------------------------------------------------------------------------
-- Repair of links after a merge
-----------------------------------------------------------------------------------------

omit [TotalOrd K] in
theorem RepairOk.congr {repair : MergeRepair} {target : PageId}
    (ok : RepairOk t repair target) (pages : t'.pages = t.pages)
    (forward : t'.forward = t.forward)
    : RepairOk t' repair target where
  retired := by rw [forward]; exact ok.retired
  predecessor := by rw [pages]; exact ok.predecessor
  target := by rw [pages]; exact ok.target

theorem Repairs.preserved (repairs : Repairs t shape upgraded pc t' pc') (inv : Inv N t shape)
    (ok : PcOk t shape pc)
    : Preserved N t shape pc t' pc' := by
  cases repairs with
  | upgraded captured =>
      exact preserved_of_silent rfl (by rintro _ ⟨⟩; rfl)
        (advance_of_same inv ⟨ok, ok.predecessor _ captured⟩)
  | lost gone => exact preserved_of_silent rfl (by rintro _ ⟨⟩; rfl) (advance_of_same inv ok)
  | @cleared key repair target held upgraded =>
      have relinked : Relinked t (t.setPrevious repair.survivor none) shape :=
        .of_setPrevious (by rintro _ ⟨⟩) inv.previous
      refine preserved_of_silent rfl (by rintro _ ⟨⟩; rfl) (relinked.advances inv ?_)
      rw [PcOk, relinked.pages]
      exact ok.target
  | back retired goes =>
      obtain ⟨repair, allocated⟩ := ok
      refine preserved_of_silent rfl (by rintro _ ⟨⟩; rfl) (advance_of_same inv ⟨repair, ?_⟩)
      rcases goes with ⟨rfl, -⟩ | ⟨-, earlier⟩
      · exact (inv.forwards _ _ retired).2
      · exact inv.previous _ _ allocated earlier
  | ends member last =>
      exact preserved_of_silent rfl (by rintro _ ⟨⟩; rfl) (advance_of_same inv ok.1)
  | onward member points active other =>
      refine preserved_of_silent rfl (by rintro _ ⟨⟩; rfl) (advance_of_same inv ⟨ok.1, ?_⟩)
      obtain ⟨s, inRow, resolves, -⟩ := inv.exists_successor member points
      exact inv.allocated_of_resolves resolves inRow
  | @compacted _ _ cursor _ _ _ _ shorter _ _ member points skips =>
      have relinked : Relinked t (t.setRight cursor (some shorter)) shape :=
        .of_setRight points (fun _ => skips.resolves) inv.previous
      refine preserved_of_silent rfl (by rintro _ ⟨⟩; rfl) (relinked.advances inv ?_)
      refine ⟨ok.1.congr relinked.pages relinked.framed.forward, ?_⟩
      rw [relinked.pages]
      cases skips with
      | one _ => exact ok.2
      | two _ also => exact (inv.forwards _ _ also).2
  | completed member points resolves =>
      have relinked := Relinked.of_link inv member points resolves
      refine preserved_of_silent rfl (by rintro _ ⟨⟩; rfl) (relinked.advances inv ?_)
      rw [PcOk, relinked.pages]
      exact ok.1.target

/-- Whatever a section does, the tree keeps its invariant, all references stay good, and the
map changes only as the section's call says.
-/
theorem Effect.preserved (effect : Effect N t shape latched upgraded pc t' pc') (inv : Inv N t shape)
    (three : 3 ≤ N) (ok : PcOk t shape pc)
    : Preserved N t shape pc t' pc' := by
  cases effect with
  | read same reads => subst same; exact reads.preserved inv three ok
  | write writes => exact writes.preserved inv
  | insert inserts => exact inserts.preserved inv three ok
  | remove removes => exact removes.preserved inv three
  | repair repairs => exact repairs.preserved inv ok

/-- References that a waiting operation holds stay good while other operations proceed. -/
theorem PcOk.evolve (ok : PcOk t shape pc) (evolves : Evolves t shape t' shape')
    : PcOk t' shape' pc := by
  have later {p : PageId} (allocated : p < t.pages) : p < t'.pages :=
    Nat.lt_of_lt_of_le allocated evolves.pages
  have repairOk {repair : MergeRepair} {target : PageId} (ok : RepairOk t repair target)
      : RepairOk t' repair target :=
    ⟨evolves.retired _ _ ok.retired, fun p isPredecessor => later (ok.predecessor p isPredecessor),
      later ok.target⟩
  cases pc with
  | leafRead | leafWrite | rightmostLeaf | insertAttempt | removeAttempt => exact later ok
  | seekRight | lastEntry =>
      obtain ⟨s, member, resolves⟩ := ok
      obtain ⟨heir, inRow, leads, -⟩ := evolves.leaf _ s member resolves
      exact ⟨heir, inRow, leads⟩
  | leftmostLeaf =>
      obtain ⟨l, s, member, first, resolves⟩ := ok
      obtain ⟨heir, m, inRow, low, leads⟩ := evolves.leftmost _ s l member first resolves
      exact ⟨m, heir, inRow, low, leads⟩
  | firstEntry =>
      obtain ⟨s, member, first, resolves⟩ := ok
      obtain ⟨heir, inRow, leads, low⟩ := evolves.leaf _ s member resolves
      exact ⟨heir, inRow, low first, leads⟩
  | repairSplitBacklink =>
      exact ⟨later ok.1, fun p isTarget => later (ok.2 p isTarget)⟩
  | mergeUpgrade | mergeClear => exact repairOk ok
  | mergeWalk => exact ⟨repairOk ok.1, later ok.2⟩
  | panicked => exact ok
  | _ => trivial

end BLink
