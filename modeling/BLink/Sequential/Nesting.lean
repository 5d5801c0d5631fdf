import BLink.Runs.Ownership
import BLink.Sequential.Structure

/-! How deep the releases of pages nest when a map is dropped or cleared.
Every page is owned by its left sibling, too, so that the release of a level's first page
releases the whole level before it is done: the nesting follows the chain of leaves.
-/

namespace BLink

open Library

variable {K V : Type} [TotalOrd K]

variable {N : Nat} {t : Tree K V} {shape : Shape} {l n : Nat} {p q : PageId}

/-- The leaves below pages of level `l`. -/
def Tree.leavesBelow (t : Tree K V) : Nat → List PageId → List PageId
  | 0, pages => pages
  | l + 1, pages => t.leavesBelow l (pages.flatMap t.children)

omit [TotalOrd K] in
theorem Tree.leavesBelow_append (t : Tree K V) (l : Nat) (front back : List PageId)
    : t.leavesBelow l (front ++ back) = t.leavesBelow l front ++ t.leavesBelow l back := by
  induction l generalizing front back with
  | zero => rfl
  | succ l ih => rw [leavesBelow, List.flatMap_append, ih, leavesBelow, leavesBelow]

/-- The rank of a page: its level and the number of leaves from its own first one on. -/
def Stands (t : Tree K V) (shape : Shape) (p : PageId) (rank : Nat) : Prop :=
  ∃ l front back,
    shape.row l = front ++ p :: back ∧ rank = l + (t.leavesBelow l (p :: back)).length

/-- There is a leaf below every page. -/
theorem Inv.leavesBelow_pos (inv : Inv N t shape) (member : p ∈ shape.row l)
    : 0 < (t.leavesBelow l [p]).length := by
  induction l generalizing p with
  | zero => exact Nat.zero_lt_one
  | succ l ih =>
      obtain ⟨keys, children, kind⟩ := inv.internal_of_pos member
      have aligned := (inv.content_internal member kind).length
      cases isChildren : children with
      | nil =>
          rw [isChildren] at aligned
          cases aligned
      | cons child rest =>
          have inside : child ∈ shape.row l := inv.child_mem member kind (by simp [isChildren])
          have own : t.children p = [child] ++ rest := by
            rw [Tree.children, kind, isChildren]
            rfl
          rw [Tree.leavesBelow, List.flatMap_singleton, own, Tree.leavesBelow_append,
            List.length_append]
          exact Nat.add_pos_left (ih inside) _

theorem Stands.pos (inv : Inv N t shape) (stands : Stands t shape p n) : 0 < n := by
  obtain ⟨l, front, back, row, rfl⟩ := stands
  have member : p ∈ shape.row l := by simp [row]
  rw [← List.singleton_append, Tree.leavesBelow_append, List.length_append]
  have positive := inv.leavesBelow_pos member
  omega

/-- The root stands above all leaves. -/
theorem Inv.leavesBelow_row (inv : Inv N t shape) (le : l ≤ shape.height)
    : t.leavesBelow l (shape.row l) = shape.row 0 := by
  induction l with
  | zero => rfl
  | succ l ih => rw [Tree.leavesBelow, ← inv.below l le, ih (Nat.le_of_succ_le le)]

theorem Inv.stands_root (inv : Inv N t shape)
    : Stands t shape t.root (shape.height + (shape.row 0).length) := by
  refine ⟨shape.height, [], [], inv.top, ?_⟩
  rw [← inv.top, inv.leavesBelow_row (Nat.le_refl _)]

/-- Where the links are exact, every strong reference of a page in use leads to a page of lower
rank: to the right there are fewer leaves, and a child stands one level lower.
-/
theorem Stands.owns (stands : Stands t shape p n) (inv : Inv N t shape) (exact : Exact t)
    (owns : t.Owns p q)
    : ∃ m, m < n ∧ Stands t shape q m := by
  obtain ⟨l, front, back, row, rfl⟩ := stands
  have member : p ∈ shape.row l := by simp [row]
  cases owns with
  | inl points =>
      have linked := inv.linked l
      rw [row] at linked
      have leads := (linked_append_iff.mp linked).2.1
      cases back with
      | nil =>
          have last : (t.page p).right = none := leads
          rw [last] at points
          cases points
      | cons successor rest =>
          obtain ⟨next, points', resolves⟩ := leads
          obtain rfl := Option.some.inj (points'.symm.trans points)
          obtain ⟨rfl, -⟩ := exact.joined (inv.active member) points resolves
          refine ⟨_, ?_, l, front ++ [p], rest, by simp [row], rfl⟩
          have positive := inv.leavesBelow_pos member
          have all : t.leavesBelow l (p :: next :: rest)
              = t.leavesBelow l [p] ++ t.leavesBelow l (next :: rest) :=
            t.leavesBelow_append l [p] _
          rw [all, List.length_append]
          omega
  | inr down =>
      cases kind : (t.page p).kind with
      | leaf => rw [kind] at down; exact down.elim
      | redirect target =>
          have retired : t.forward p = some target := by rw [Tree.forward_eq, kind]; rfl
          rw [(inv.active member).2] at retired
          cases retired
      | internal keys children =>
          rw [kind] at down
          obtain ⟨below, rfl⟩ := inv.pos_of_internal member kind
          obtain ⟨before, after, own⟩ := List.append_of_mem down
          have isChildren : t.children p = before ++ q :: after := by
            rw [Tree.children, kind, ← own]
            rfl
          have le := inv.le_height member
          have lower : shape.row below
              = (front.flatMap t.children ++ before) ++ q :: (after ++ back.flatMap t.children) := by
            rw [inv.below below le, row, List.flatMap_append, List.flatMap_cons, isChildren]
            simp
          refine ⟨_, ?_, below, _, _, lower, rfl⟩
          have all : t.leavesBelow (below + 1) (p :: back)
              = t.leavesBelow below before
                ++ t.leavesBelow below (q :: (after ++ back.flatMap t.children)) := by
            rw [Tree.leavesBelow, List.flatMap_cons, isChildren, ← Tree.leavesBelow_append]
            simp
          rw [all, List.length_append]
          omega

/-- When a map that a single thread has used is dropped or cleared, releases nest no deeper
than the tree is high and wide: along one path from the root to a leaf, and along the leaves.
-/
theorem release_nests {N : PageCapacity} {s : System Unit K V}
    (reached : (System.transitions Unit K V N).Reachable s)
    (idle : (s.thread ()).status = .idle)
    : ∃ height,
        (∀ depth, ∀ p ∈ s.tree.level depth, (s.tree.page p).kind.isLeaf ↔ depth = height)
        ∧ ∀ cells during,
            Releasing.Reaches s.tree.strongRefs (s.tree.dropRoot cells) during
            → during.stack.length ≤ height + (s.tree.level height).length := by
  obtain ⟨shape, tidy⟩ := reachable_tidy reached
  have inv := tidy.ok.inv
  have exact := tidy.tidy
  rw [idle] at exact
  refine ⟨shape.height, fun depth p member => ?_, fun cells during reaches => ?_⟩
  · obtain ⟨le, inRow⟩ := inv.mem_level.mp member
    rw [(inv.page _ p inRow).leaf_iff]
    omega
  · rw [inv.level_eq (Nat.le_refl _), Nat.sub_self]
    refine Releasing.stack_le ?_ (fun _ _ stands => stands.pos inv) inv.stands_root rfl reaches
    intro p n q stands isRef
    exact stands.owns inv exact (Tree.mem_strongRefs.mp isRef)

/-- The bound is attained: a root with two leaves, which are released one inside the other. -/
theorem release_nests_attained
    : ∃ (s : System Unit Nat Nat) (during : Releasing PageId),
        s.tree.level 1 = [0, 2]
        ∧ Releasing.Reaches s.tree.strongRefs (s.tree.dropRoot [0, 1, 2]) during
        ∧ during.stack.length = 3
        ∧ ∃ height,
            (∀ depth, ∀ p ∈ s.tree.level depth, (s.tree.page p).kind.isLeaf ↔ depth = height)
            ∧ during.stack.length ≤ height + (s.tree.level height).length := by
  have plays : ((System.fresh : System Unit Nat Nat).replay .smallest [()]
      ([1, 2, 3].flatMap (fun key => Move.whole () (.insert key key) 3)
        ++ Move.whole () (.insert 4 4) 8)).map (fun played =>
          (
            played.2.isQuiet [()],
            played.2.tree.level 1,
            ((played.2.tree.dropRoot [0, 1, 2]).after played.2.tree.strongRefs 3).stack.length
          ))
      = some (true, [0, 2], 3) := by
    decide +kernel
  obtain ⟨⟨trace, s⟩, replayed, checks⟩ := Option.map_eq_some_iff.mp plays
  simp only [Prod.mk.injEq] at checks
  obtain ⟨quiet, level, deep⟩ := checks
  have reaches := Releasing.reaches_after s.tree.strongRefs 3 (s.tree.dropRoot [0, 1, 2])
  obtain ⟨height, leaves, bounded⟩ :=
    release_nests (System.reachable_of_replay (fun _ => List.mem_cons_self) replayed)
      (System.idle_of_isQuiet (fun _ => List.mem_cons_self) quiet ())
  exact ⟨s, _, level, reaches, deep, height, leaves, bounded _ _ reaches⟩

/-- Keys that are inserted in ascending order fill many leaves with one record each. -/
theorem release_nests_along_leaves
    : ∃ (s : System Unit Nat Nat) (cells : List PageId) (during : Releasing PageId),
        (System.transitions Unit Nat Nat .smallest).Reachable s
        ∧ (s.thread ()).status = .idle
        ∧ (∀ p, p ∈ cells ↔ s.Alive p)
        ∧ s.tree.level 3 ≠ []
        ∧ s.tree.level 4 = []
        ∧ Releasing.Reaches s.tree.strongRefs (s.tree.dropRoot cells) during
        ∧ (3 + 1) * 4 < during.stack.length := by
  have plays : ((System.fresh : System Unit Nat Nat).replay .smallest [()]
      (([3, 3, 3, 8, 9, 9, 11, 11, 12, 11, 12, 13, 14, 13, 14, 14, 14, 13].zipIdx).flatMap
        (fun (sections, key) => Move.whole () (.insert key key) sections))).bind (fun played =>
          (played.2.live [()]).map (fun cells =>
            (
              played.2.isQuiet [()],
              (played.2.tree.level 3).isEmpty,
              (played.2.tree.level 4).isEmpty,
              ((played.2.tree.dropRoot cells).after played.2.tree.strongRefs 57).stack.length
            )))
      = some (true, false, true, 19) := by
    decide +kernel
  obtain ⟨⟨trace, s⟩, replayed, plays⟩ := Option.bind_eq_some_iff.mp plays
  obtain ⟨cells, computed, checks⟩ := Option.map_eq_some_iff.mp plays
  simp only [Prod.mk.injEq] at checks
  obtain ⟨quiet, leaves, beyond, deep⟩ := checks
  have all : ∀ θ : Unit, θ ∈ [()] := fun _ => List.mem_cons_self
  refine ⟨s, cells, _, System.reachable_of_replay all replayed, System.idle_of_isQuiet all quiet (),
    fun p => (System.alive_iff all computed p).symm, ?_, List.isEmpty_iff.mp beyond,
    Releasing.reaches_after _ 57 _, ?_⟩
  · intro empty
    rw [empty] at leaves
    cases leaves
  · rw [deep]
    decide

end BLink
