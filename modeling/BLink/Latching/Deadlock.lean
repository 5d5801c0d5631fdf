import BLink.Latching.Invariant
import BLink.Latching.Schedule

/-! No deadlock among operations, and no convoys behind retained guards.
Threads wait for latches along one order, whoever holds them. They wait for a leaf with the
root slot or an internal page in hand only while it is the single leaf.
-/

namespace BLink

open Library

variable {ι K V : Type} [TotalOrd K]

variable {N : PageCapacity} {m : Machine ι K V} {shape : Shape} {levels : Levels PageId} {θ : ι}

/-- The latch that a thread waits for. -/
def Machine.wanted (m : Machine ι K V) (θ : ι) : Option Latch :=
  match (m.worker θ).phase with
  | .await latch _ => some latch
  | _ => none

/-- A thread that waits for a latch is in the middle of a section. -/
theorem MachineOk.waits (ok : MachineOk N m shape levels) {latch : Latch} {mode : Mode}
    (awaits : (m.worker θ).phase = .await latch mode)
    : ∃ pc,
        PcOk m.system.tree shape pc
        ∧ Stage N.size m.system.tree pc (m.worker θ).held (.await latch mode) := by
  obtain ⟨call, pc, running, -, acquired⟩ :=
    (ok.worker θ).acquired (by rw [awaits]; exact nofun) (by rw [awaits]; exact nofun)
  rw [awaits] at acquired
  exact ⟨pc, (ok.arranged.ok.thread θ).pc call pc running, acquired.stage⟩

/-- Everything that a waiting thread holds comes before what it waits for. -/
theorem MachineOk.waits_upwards (ok : MachineOk N m shape levels) {latch mine : Latch}
    {mode : Mode} (wants : m.wanted θ = some latch) (holds : (mine, mode) ∈ (m.worker θ).held)
    : mine.Before levels latch := by
  rw [Machine.wanted] at wants
  split at wants
  next other awaited awaits =>
    cases wants
    obtain ⟨pc, pcOk, stage⟩ := ok.waits awaits
    exact stage.holds_before pcOk ok.arranged.ok.inv ok.arranged.ordered holds
  next => cases wants

-----------------------------------------------------------------------------------------
-- Waiting for a leaf
-----------------------------------------------------------------------------------------

section

variable {N : Nat} {t : Tree K V} {p q : PageId}

/-- A tree of two leaves has a taller root. -/
theorem Inv.height_pos (inv : Inv N t shape) (differ : p ≠ q) (first : t.IsLeaf (.page p))
    (second : t.IsLeaf (.page q))
    : 0 < shape.height := by
  have inRow := inv.mem_of_isLeaf first
  have alsoInRow := inv.mem_of_isLeaf second
  refine Nat.pos_of_ne_zero (fun height => differ ?_)
  have row := inv.top
  rw [height] at row
  rw [row, List.mem_singleton] at inRow alsoInRow
  exact inRow.trans alsoInRow.symm

/-- The single leaf of a tree is the root or its only child. A thread that waits for any other
leaf holds a page beside the leaf.
-/
theorem Orderly.beside (inv : Inv N t shape) (differ : p ≠ q) (first : t.IsLeaf (.page p))
    (second : t.IsLeaf (.page q)) {mine wanted : Latch} (orderly : Orderly t levels mine wanted)
    (isLeaf : t.IsLeaf wanted)
    : ∃ page leaf, mine = .page page ∧ wanted = .page leaf ∧ levels.Left page leaf := by
  have tall := inv.height_pos differ first second
  cases orderly with
  | root =>
      have height := inv.level_unique inv.root_mem (inv.mem_of_isLeaf isLeaf)
      omega
  | @onlyChild child kind =>
      obtain ⟨l, height⟩ := inv.pos_of_internal inv.root_mem kind
      have inRow : child ∈ shape.row l :=
        inv.child_mem (height ▸ inv.root_mem) kind List.mem_cons_self
      obtain rfl := inv.level_unique inRow (inv.mem_of_isLeaf isLeaf)
      have row : shape.row 0 = [child] := by
        rw [inv.below 0 tall, ← height, inv.top]
        simp [Tree.children, kind]
      have inRow := inv.mem_of_isLeaf first
      have alsoInRow := inv.mem_of_isLeaf second
      rw [row, List.mem_singleton] at inRow alsoInRow
      exact absurd (inRow.trans alsoInRow.symm) differ
  | @right page leaf left => exact ⟨page, leaf, rfl, rfl, left⟩

/-- No internal page stands beside a leaf. -/
theorem Ordered.not_internal (ordered : Ordered t shape levels) (inv : Inv N t shape)
    (left : levels.Left p q) (isLeaf : t.IsLeaf (.page q)) (keys : List (KeyHandle K))
    (children : List PageId)
    : (t.page p).kind ≠ .internal keys children := by
  intro kind
  have inLine := ordered.mem_line (inv.mem_of_isLeaf isLeaf)
  have beside := (left.before inLine).mem.1
  have active : t.Active p :=
    ⟨(ordered.allocated p).mpr ⟨0, beside⟩, by rw [Tree.forward, kind]⟩
  obtain ⟨l, inRow⟩ := (inv.active_iff p).mp active
  obtain ⟨m, rfl⟩ := inv.pos_of_internal inRow kind
  cases levels.disjoint beside (ordered.mem_line inRow)

/-- Nor does the root, when there are two leaves. -/
theorem Ordered.ne_root (ordered : Ordered t shape levels) (inv : Inv N t shape)
    (tall : 0 < shape.height) (left : levels.Left p q) (isLeaf : t.IsLeaf (.page q))
    : p ≠ t.root := by
  intro isRoot
  have beside := (left.before (ordered.mem_line (inv.mem_of_isLeaf isLeaf))).mem.1
  have height := levels.disjoint (isRoot ▸ beside) (ordered.mem_line inv.root_mem)
  omega

end

variable [DecidableEq ι]

-----------------------------------------------------------------------------------------
-- The contracts
-----------------------------------------------------------------------------------------

/-- In no reachable state threads wait for each other's latches in a cycle. A thread that waits
with latches in hand waits from the root slot for the root page, from a root page for its only
child, or from a page for one further right on its level.
-/
theorem no_latch_deadlock (reached : (Machine.transitions ι K V N).Reachable m)
    : (∀ θ, ¬ Relation.TransGen (WaitsFor m.wanted (fun θ => (m.worker θ).held)) θ θ)
      ∧ ∃ shape levels,
          Inv N.size m.system.tree shape
          ∧ Ordered m.system.tree shape levels
          ∧ ∀ θ newest rest wanted mode,
              m.worker θ = { held := newest :: rest, phase := .await wanted mode }
              → Orderly m.system.tree levels newest.1 wanted := by
  obtain ⟨shape, levels, ok⟩ := machine_ok reached
  refine ⟨?_, shape, levels, ok.arranged.ok.inv, ok.arranged.ordered, ?_⟩
  · apply WaitsFor.acyclic Latch.Before.irrefl Latch.Before.trans
    intro θ latch mine mode wants holds
    exact ok.waits_upwards wants holds
  · intro θ newest rest wanted mode waiting
    obtain ⟨pc, pcOk, stage⟩ := ok.waits (congrArg Worker.phase waiting)
    rw [waiting] at stage
    exact (stage.orderly pcOk ok.arranged.ok.inv ok.arranged.ordered).1

/-- One thread waits with the root slot in hand for the root page, which another one holds. -/
theorem no_latch_deadlock_root
    : ∃ (m : Machine (Fin 2) Nat Nat) (levels : Levels PageId),
        WaitsFor m.wanted (fun θ => (m.worker θ).held) 1 0
        ∧ ¬ Relation.TransGen (WaitsFor m.wanted (fun θ => (m.worker θ).held)) 1 1
        ∧ Orderly m.system.tree levels .slot (.page 0) := by
  have plays : ((Machine.fresh : Machine (Fin 2) Nat Nat).replay .smallest [0, 1]
      (Turn.whole 0 (.insert 1 1) 13 ++ Turn.whole 0 (.insert 2 2) 13
        ++ Turn.whole 0 (.insert 3 3) 13 ++ .invoke 0 (.insert 5 5)
        :: List.replicate 8 (.advance 0) ++ .invoke 1 (.insert 4 4)
        :: List.replicate 13 (.advance 1) ++ [.advance 0])).map
        (fun played => (played.2.worker 0, played.2.worker 1))
      = some (
        { held := [(.page 0, .exclusive)], phase := .act true },
        { held := [(.slot, .exclusive)], phase := .await (.page 0) .exclusive }
      ) := by
    decide +kernel
  obtain ⟨⟨trace, m⟩, replayed, workers⟩ := Option.map_eq_some_iff.mp plays
  obtain ⟨holds, waits⟩ := Prod.mk.inj workers
  obtain ⟨acyclic, shape, levels, -, -, orderly⟩ :=
    no_latch_deadlock (Machine.reachable_of_replay (by decide) replayed)
  refine ⟨m, levels, ⟨.page 0, .exclusive, ?_, ?_⟩, acyclic 1, orderly 1 _ _ _ _ waits⟩
  · rw [Machine.wanted, show m.worker 1 = _ from waits]
  · show (Latch.page 0, Mode.exclusive) ∈ (m.worker 0).held
    rw [show m.worker 0 = _ from holds]
    exact List.mem_cons_self

/-- With two leaves, no thread waits for a leaf while it holds the root slot or an internal
page, whatever leaves public guards retain.
-/
theorem no_convoy (reached : (Machine.transitions ι K V N).Reachable m) {p q : PageId}
    (differ : p ≠ q) (first : m.system.tree.IsLeaf (.page p))
    (second : m.system.tree.IsLeaf (.page q)) {wanted : Latch} {mode : Mode}
    (waits : (m.worker θ).phase = .await wanted mode) (isLeaf : m.system.tree.IsLeaf wanted)
    {holding : Latch × Mode} (holds : holding ∈ (m.worker θ).held)
    : holding.1 ≠ .slot
      ∧ ∀ page keys children,
          holding.1 = .page page
          → (m.system.tree.page page).kind ≠ .internal keys children := by
  obtain ⟨shape, levels, ok⟩ := machine_ok reached
  have inv := ok.arranged.ok.inv
  have ordered := ok.arranged.ordered
  obtain ⟨pc, pcOk, stage⟩ := ok.waits waits
  generalize latches : (m.worker θ).held = held at stage holds
  cases held with
  | nil => cases holds
  | cons newest rest =>
      obtain ⟨orderly, few⟩ := stage.orderly pcOk inv ordered
      obtain ⟨page, leaf, mine, rfl, left⟩ := orderly.beside inv differ first second isLeaf
      rcases few with rfl | ⟨isRoot, -⟩
      · obtain rfl := List.mem_singleton.mp holds
        rw [mine]
        refine ⟨nofun, fun _ keys children same => ?_⟩
        cases same
        exact ordered.not_internal inv left isLeaf keys children
      · rw [mine, Latch.page.injEq] at isRoot
        have tall := inv.height_pos differ first second
        exact absurd isRoot (ordered.ne_root inv tall left isLeaf)

/-- After a split a thread waits for a retained leaf, with nothing but the new leaf in hand. -/
theorem no_convoy_split
    : ∃ m : Machine (Fin 2) Nat Nat,
        (.page 2, .shared) ∈ m.guards
        ∧ (m.worker 1).phase = .await (.page 2) .exclusive
        ∧ (.page 3, .exclusive) ∈ (m.worker 1).held
        ∧ ∀ keys children, (m.system.tree.page 3).kind ≠ .internal keys children := by
  have plays : ((Machine.fresh : Machine (Fin 2) Nat Nat).replay .smallest [0, 1]
      (Turn.guarded ++ .invoke 1 (.insert 13 13) :: List.replicate 33 (.advance 1))).map
        (fun played =>
          (
            played.2.guards,
            played.2.worker 1,
            played.2.system.tree.pages,
            (played.2.system.tree.page 0).kind.isLeaf,
            (played.2.system.tree.page 2).kind.isLeaf
          ))
      = some (
        [(.page 2, .shared)],
        { held := [(.page 3, .exclusive)], phase := .await (.page 2) .exclusive },
        4,
        true,
        true
      ) := by
    decide +kernel
  obtain ⟨⟨trace, m⟩, replayed, state⟩ := Option.map_eq_some_iff.mp plays
  simp only [Prod.mk.injEq] at state
  obtain ⟨guards, waits, pages, first, second⟩ := state
  have isLeaf {p : PageId} (allocated : p < 4) (leaf : (m.system.tree.page p).kind.isLeaf = true)
      : m.system.tree.IsLeaf (.page p) := by
    cases kind : (m.system.tree.page p).kind with
    | leaf entries => exact ⟨p, entries, rfl, by rw [pages]; exact allocated, kind⟩
    | _ => rw [kind] at leaf; cases leaf
  have holds : (.page 3, .exclusive) ∈ (m.worker 1).held := by
    rw [waits]
    exact List.mem_cons_self
  refine ⟨m, guards ▸ List.mem_cons_self, congrArg Worker.phase waits, holds, ?_⟩
  intro keys children
  exact (no_convoy (Machine.reachable_of_replay (by decide) replayed) (p := 0) (q := 2)
    (by decide) (isLeaf (by decide) first) (isLeaf (by decide) second)
    (congrArg Worker.phase waits) (isLeaf (by decide) second) holds).2 3 keys children rfl

end BLink
