import BLink.Runs.Invariant
import BLink.Runs.Schedule

/-! The search structure of every reachable state, in terms of the pages alone.
Pages are listed by their depth below the root slot; right links may lead through retired
pages, because link repairs may be pending.
-/

namespace BLink

open Library

variable {ι K V : Type}

/-- The pages at a depth below the root, by child pointers. -/
def Tree.level (t : Tree K V) : Nat → List PageId
  | 0 => [t.root]
  | depth + 1 => (t.level depth).flatMap t.children

variable [TotalOrd K]

/-- The pages of a tree form a search structure over the whole key space. -/
structure SearchStructure (N : Nat) (t : Tree K V) : Prop where
  root_active : t.Active t.root
  root_fences : t.low t.root = none ∧ t.high t.root = none
  is_root : ∀ p, t.Active p → ((t.page p).isRoot ↔ p = t.root)
  reached : ∀ p, t.Active p ↔ ∃ depth, p ∈ t.level depth
  leaf_depth : ∃ height, ∀ depth, ∀ p ∈ t.level depth, (t.page p).kind.isLeaf ↔ depth = height
  partition
    : ∀ depth,
        t.level depth ≠ []
        → ∃ separators, Tiles (Spans t.low t.high) none separators (t.level depth) none
  content
    : ∀ p, t.Active p → Content t.low t.high (t.low p) (t.high p) (t.page p).kind
  full : ∀ p, t.Active p → (t.page p).kind.size ≤ N
  minimum : ∀ p, t.Active p → p ≠ t.root → (t.page p).kind.least N ≤ (t.page p).kind.size
  aligned
    : ∀ p keys children,
        t.Active p → (t.page p).kind = .internal keys children
        → children.length = keys.length + 1
  right_link
    : ∀ depth, ∀ p ∈ t.level depth, ∀ fence ∈ t.high p,
        ∃ next successor,
          (t.page p).right = some next
          ∧ Resolves t.forward next successor
          ∧ successor ∈ t.level depth
          ∧ t.low successor = some fence
  forwarding : ∀ p, p < t.pages → ∃ final, Resolves t.forward p final ∧ t.Active final

namespace Inv

variable {N : Nat} {t : Tree K V} {shape : Shape}

/-- Levels counted from the root and rows counted from the leaves are the same lists. -/
theorem level_eq (inv : Inv N t shape) {depth : Nat} (le : depth ≤ shape.height)
    : t.level depth = shape.row (shape.height - depth) := by
  induction depth with
  | zero => rw [Nat.sub_zero, inv.top, Tree.level]
  | succ depth ih =>
      have next : shape.height - (depth + 1) + 1 = shape.height - depth := by omega
      rw [Tree.level, ih (by omega), ← next]
      exact (inv.below _ (by omega)).symm

/-- There is nothing below the leaves. -/
theorem level_beyond (inv : Inv N t shape) {depth : Nat} (beyond : shape.height < depth)
    : t.level depth = [] := by
  induction depth with
  | zero => cases beyond
  | succ depth ih =>
      rw [Tree.level]
      by_cases leaves : depth = shape.height
      · rw [leaves, inv.level_eq (Nat.le_refl _), Nat.sub_self]
        refine List.flatMap_eq_nil_iff.mpr (fun p member => ?_)
        rw [Tree.children, inv.entries_of_leaf member]
        rfl
      · rw [ih (by omega), List.flatMap_nil]

theorem mem_level (inv : Inv N t shape) {depth : Nat} {p : PageId}
    : p ∈ t.level depth ↔ depth ≤ shape.height ∧ p ∈ shape.row (shape.height - depth) := by
  by_cases le : depth ≤ shape.height
  · simp [inv.level_eq le, le]
  · simp [inv.level_beyond (Nat.lt_of_not_le le), le]

theorem active_iff_level (inv : Inv N t shape) {p : PageId}
    : t.Active p ↔ ∃ depth, p ∈ t.level depth := by
  rw [inv.active_iff]
  constructor
  · rintro ⟨l, member⟩
    have le := inv.le_height member
    refine ⟨shape.height - l, inv.mem_level.mpr ⟨Nat.sub_le _ _, ?_⟩⟩
    rwa [Nat.sub_sub_self le]
  · rintro ⟨depth, member⟩
    exact ⟨_, (inv.mem_level.mp member).2⟩

/-- What forwarding leads to is active. -/
theorem final_active (inv : Inv N t shape) {p final : PageId} (allocated : p < t.pages)
    (resolves : Resolves t.forward p final)
    : t.Active final := by
  induction resolves with
  | settled here => exact ⟨allocated, here⟩
  | forward there _ ih => exact ih (inv.forwards _ _ there).2

/-- The structural invariant gives the search structure. -/
theorem searchStructure (inv : Inv N t shape) : SearchStructure N t := by
  have page {p : PageId} (active : t.Active p) : ∃ l, p ∈ shape.row l ∧ PageOk N t l p := by
    obtain ⟨l, member⟩ := (inv.active_iff p).mp active
    exact ⟨l, member, inv.page l p member⟩
  refine {
    root_active := inv.root_active
    root_fences := ⟨inv.root_low, inv.root_high⟩
    is_root := ?_
    reached := fun p => inv.active_iff_level
    leaf_depth := ?_
    partition := ?_
    content := ?_
    full := ?_
    minimum := ?_
    aligned := ?_
    right_link := ?_
    forwarding := ?_
  }
  · intro p active
    obtain ⟨l, -, ok⟩ := page active
    exact ok.flag
  · refine ⟨shape.height, fun depth p member => ?_⟩
    obtain ⟨le, inRow⟩ := inv.mem_level.mp member
    rw [(inv.page _ p inRow).leaf_iff]
    omega
  · intro depth nonempty
    by_cases le : depth ≤ shape.height
    · rw [inv.level_eq le]
      exact inv.tiles (Nat.sub_le _ _)
    · exact absurd (inv.level_beyond (Nat.lt_of_not_le le)) nonempty
  · intro p active
    obtain ⟨l, -, ok⟩ := page active
    exact ok.content
  · intro p active
    obtain ⟨l, -, ok⟩ := page active
    exact ok.full
  · intro p active
    obtain ⟨l, -, ok⟩ := page active
    exact ok.minimum
  · intro p keys children active kind
    obtain ⟨l, member, -⟩ := page active
    exact inv.aligned member kind
  · intro depth p member fence isHigh
    obtain ⟨le, inRow⟩ := inv.mem_level.mp member
    rcases inv.right_cases inRow with ⟨-, ends⟩ | ⟨next, s, points, sInRow, resolves, fences, -⟩
    · rw [ends] at isHigh
      cases isHigh
    · refine ⟨next, s, points, resolves, inv.mem_level.mpr ⟨le, sInRow⟩, ?_⟩
      rw [← fences]
      exact isHigh
  · intro p allocated
    obtain ⟨final, resolves⟩ := inv.resolves p allocated
    exact ⟨final, resolves, inv.final_active allocated resolves⟩

end Inv

-----------------------------------------------------------------------------------------
-- Roots without separators
-----------------------------------------------------------------------------------------

/-- The root is an internal page without separators. -/
def Tree.BareRoot (t : Tree K V) : Prop :=
  ∃ children, (t.page t.root).kind = .internal [] children

/-- The removal will pass `shrink_root` before it returns. -/
def Pc.shrinks : Pc K V → Bool
  | .shrinkRoot _ _ | .removeAttempt _ _ | .mergeUpgrade _ _ _ _ | .mergeClear _ _ _ _
  | .mergeWalk _ _ _ _ _ => true
  | _ => false

section Bare

variable {N : Nat} {t t' : Tree K V} {shape : Shape} {upgraded : Bool} {pc pc' : Pc K V}

theorem LeafUpdated.bareRoot {p : PageId} {old new : List (Entry K V)}
    (updated : LeafUpdated N t t' p old new) (bare : t'.BareRoot)
    : t.BareRoot := by
  obtain ⟨children, kind⟩ := bare
  rw [updated.root] at kind
  by_cases here : t.root = p
  · rw [here, updated.page] at kind
    cases kind
  · rw [updated.other _ here] at kind
    exact ⟨children, kind⟩

/-- Only a removal that will still shrink the root leaves a bare root, or the root has been
bare before.
-/
theorem Effect.bareRoot (effect : Effect N t shape latched upgraded pc t' pc') (inv : Inv N t shape)
    (bare : t'.BareRoot)
    : pc'.shrinks = true ∨ t.BareRoot ∧ pc.shrinks = false := by
  cases effect with
  | read same reads =>
      subst same
      refine .inr ⟨bare, ?_⟩
      cases reads with
      | seekFound _ _ _ source | seekEnd _ _ _ _ source | seekNext _ _ _ _ _ _ _ source =>
          rcases source with ⟨rfl, -⟩ | rfl <;> rfl
      | _ => rfl
  | write writes =>
      cases writes with
      | getMutFound _ _ updated | insertDone _ _ updated | removeDone _ _ updated =>
          exact .inr ⟨updated.bareRoot bare, rfl⟩
      | _ => exact .inr ⟨bare, rfl⟩
  | insert inserts =>
      cases inserts with
      | rootSplits grow split =>
          obtain ⟨children, kind⟩ := bare
          rw [split.root, grow.root, split.parent] at kind
          cases kind
      | @split _ _ p c _ l _ _ _ _ front back _ _ member split goes =>
          obtain ⟨children, kind⟩ := bare
          have childMember : c ∈ shape.row l := inv.child_mem member split.kind (by simp)
          have notChild : t.root ≠ c :=
            (inv.ne_root childMember (by have := inv.le_height member; omega)).symm
          have notNew : t.root ≠ t.pages := Nat.ne_of_lt inv.root_active.1
          rw [split.root] at kind
          by_cases parent : t.root = p
          · rw [parent, split.parent] at kind
            simp at kind
          · rw [split.other _ parent notChild notNew] at kind
            exact .inr ⟨⟨children, kind⟩, rfl⟩
      | done _ _ updated => exact .inr ⟨updated.bareRoot bare, rfl⟩
      | repaired member points inRow resolves =>
          obtain ⟨children, kind⟩ := bare
          have relinked := Relinked.of_link inv member points resolves
          rw [relinked.root, relinked.kind] at kind
          exact .inr ⟨⟨children, kind⟩, rfl⟩
      | _ => exact .inr ⟨bare, rfl⟩
  | remove removes =>
      cases removes with
      | rootStays separated =>
          obtain ⟨children, kind⟩ := bare
          exact absurd kind (separated children)
      | _ => exact .inl rfl
  | repair repairs => cases repairs <;> exact .inl rfl

end Bare

variable [DecidableEq ι] {N : PageCapacity} {s s' : System ι K V}

/-- A removal that will still shrink the root is running, whenever the root is bare. -/
def ShrinkPending (s : System ι K V) : Prop :=
  s.tree.BareRoot
  → ∃ θ key pc, (s.thread θ).status = .running (.remove key) pc ∧ pc.shrinks = true

omit [DecidableEq ι] in
theorem Pc.serves_of_shrinks {pc : Pc K V} (shrinks : pc.shrinks = true)
    : ∃ key, pc.serves = some (.remove key) := by
  cases pc <;> cases shrinks <;> exact ⟨_, rfl⟩

theorem ShrinkPending.setThread {θ : ι} {thread : Thread K V} (pending : ShrinkPending s)
    (quiet
      : ∀ call pc, (s.thread θ).status = .running call pc → pc.shrinks = false)
    : ShrinkPending (s.setThread θ thread) := by
  intro bare
  obtain ⟨other, key, pc, running, shrinks⟩ := pending bare
  have differs : other ≠ θ := by
    rintro rfl
    rw [quiet _ _ running] at shrinks
    cases shrinks
  refine ⟨other, key, pc, ?_, shrinks⟩
  rwa [System.setThread_other s thread differs]

theorem ShrinkPending.step {label : Label ι K V} {shape : Shape} (pending : ShrinkPending s)
    (ok : SystemOk N s shape) (step : (System.transitions ι K V N).step s label s')
    : ShrinkPending s' := by
  cases label with
  | invoke θ call =>
      cases step with
      | invoke idle =>
          refine pending.setThread (fun _ _ running => ?_)
          rw [idle] at running
          cases running
  | respond θ call response =>
      cases step with
      | respond done =>
          refine pending.setThread (fun _ _ running => ?_)
          rw [done] at running
          cases running
          rfl
  | pass θ latched upgraded =>
      obtain ⟨call, pc, t', pc', passed⟩ := ok.section_step step
      obtain ⟨shape', advance, -⟩ := passed.preserved ok
      have after := passed.systemOk ok advance
      rw [passed.target] at after ⊢
      intro bare
      rcases passed.effect.bareRoot ok.inv bare with shrinks | ⟨before, quiet⟩
      · have settled : pc'.isSettled = pc'.isFinal := by cases pc' <;> first | rfl | cases shrinks
        have status
            : ((s.setThread θ ((s.thread θ).resume call pc')).thread θ).status
              = .running call pc' := by
          rw [System.setThread_same, Thread.resume_eq _ _ settled]
        obtain ⟨key, serves⟩ := Pc.serves_of_shrinks shrinks
        have mine := (after.thread θ).serves call pc' status _ serves
        exact ⟨θ, key, pc', by rw [mine]; exact status, shrinks⟩
      · refine pending.setThread (fun call' pc'' running => ?_) before
        rw [passed.running] at running
        cases running
        exact quiet

/-- A root without separators is left to a removal that is still running. -/
theorem shrink_pending_reachable (reached : (System.transitions ι K V N).Reachable s)
    : ShrinkPending s := by
  refine reached.invariant ?_ ?_
  · intro s initial bare
    obtain ⟨children, kind⟩ := bare
    rw [initial.tree] at kind
    cases kind
  · intro s label s' earlier pending step
    obtain ⟨shape, ok⟩ := reachable_ok earlier
    exact pending.step ok step

/-- In every reachable state the pages form a search structure, and the root has separators
or is a leaf unless a removal is still running.
-/
theorem search_structure_reachable (reached : (System.transitions ι K V N).Reachable s)
    : SearchStructure N.size s.tree
      ∧ (s.tree.BareRoot → ∃ θ key pc, (s.thread θ).status = .running (.remove key) pc) := by
  obtain ⟨shape, ok⟩ := reachable_ok reached
  refine ⟨ok.inv.searchStructure, ?_⟩
  have pending : ShrinkPending s := by
    refine reached.invariant ?_ ?_
    · rintro s ⟨tree, -, -⟩ ⟨children, kind⟩
      rw [tree] at kind
      cases kind
    · intro s label s' earlier pending step
      obtain ⟨shape, ok⟩ := reachable_ok earlier
      exact pending.step ok step
  intro bare
  obtain ⟨θ, key, pc, running, -⟩ := pending bare
  exact ⟨θ, key, pc, running⟩

/-- Four insertions split the root leaf. -/
theorem search_structure_split
    : ∃ trace s,
        (System.fresh : System (Fin 2) Nat Nat).replay .smallest [0, 1]
            ([1, 2, 3].flatMap (fun key => Move.whole 0 (.insert key key) 3)
              ++ Move.whole 1 (.insert 4 4) 8)
          = some (trace, s)
        ∧ SearchStructure 3 s.tree := by
  have plays : ((System.fresh : System (Fin 2) Nat Nat).replay .smallest [0, 1]
      ([1, 2, 3].flatMap (fun key => Move.whole 0 (.insert key key) 3)
        ++ Move.whole 1 (.insert 4 4) 8)).isSome = true := by decide +kernel
  obtain ⟨⟨trace, s⟩, replayed⟩ := Option.isSome_iff_exists.mp plays
  exact ⟨trace, s, replayed,
    (search_structure_reachable (System.reachable_of_replay (by decide) replayed)).1⟩

end BLink
