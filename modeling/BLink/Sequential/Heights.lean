import BLink.Sequential.Passes
import Mathlib.Algebra.Order.BigOperators.Group.List
import Mathlib.Algebra.Order.Ring.Nat

/-! The number of levels of a tree that no operation is at work on.
Every page but the root has at least the minimum of children or records, so the number of
records grows exponentially with the number of levels.
-/

namespace BLink

open Library

variable {K V : Type} [TotalOrd K]

variable {N : Nat} {t : Tree K V} {shape : Shape} {l : Nat} {p : PageId}

-----------------------------------------------------------------------------------------
-- Children and records of a row
-----------------------------------------------------------------------------------------

/-- A list has at least `least` members for every element that it comes from. -/
theorem length_flatMap_ge {α β : Type} {row : List α} {members : α → List β} {least : Nat}
    (enough : ∀ x ∈ row, least ≤ (members x).length)
    : row.length * least ≤ (row.flatMap members).length := by
  rw [List.length_flatMap]
  have sum :=
    List.card_nsmul_le_sum (row.map fun x => (members x).length) least (by simpa using enough)
  simpa using sum

/-- A list has at most `most` members for every element that it comes from. -/
theorem length_flatMap_le {α β : Type} {row : List α} {members : α → List β} {most : Nat}
    (few : ∀ x ∈ row, (members x).length ≤ most)
    : (row.flatMap members).length ≤ row.length * most := by
  rw [List.length_flatMap]
  have sum := List.sum_le_card_nsmul (row.map fun x => (members x).length) most (by simpa using few)
  simpa using sum

namespace Inv

theorem children_le (inv : Inv N t shape) (member : p ∈ shape.row (l + 1))
    : (t.children p).length ≤ N + 1 := by
  obtain ⟨keys, children, kind⟩ := inv.internal_of_pos member
  have length := (inv.content_internal member kind).length
  have full := (inv.page _ p member).full
  rw [kind, NodeKind.size] at full
  rw [Tree.children, kind, NodeKind.children, length]
  omega

theorem children_ge (inv : Inv N t shape) (member : p ∈ shape.row (l + 1)) (notRoot : p ≠ t.root)
    : (N - 1) / 2 + 1 ≤ (t.children p).length := by
  obtain ⟨keys, children, kind⟩ := inv.internal_of_pos member
  have length := (inv.content_internal member kind).length
  have enough := (inv.page _ p member).minimum notRoot
  rw [kind, NodeKind.size, NodeKind.least] at enough
  rw [Tree.children, kind, NodeKind.children, length]
  omega

theorem entries_le (inv : Inv N t shape) (member : p ∈ shape.row 0)
    : (t.entries p).length ≤ N := by
  obtain ⟨entries, kind⟩ := inv.leaf_of_zero member
  have full := (inv.page _ p member).full
  rwa [Tree.entries, kind] at *

theorem entries_ge (inv : Inv N t shape) (member : p ∈ shape.row 0) (notRoot : p ≠ t.root)
    : N / 2 ≤ (t.entries p).length := by
  obtain ⟨entries, kind⟩ := inv.leaf_of_zero member
  have enough := (inv.page _ p member).minimum notRoot
  rwa [Tree.entries, kind] at *

/-- Downwards the rows grow by at most the capacity's factor, by induction on the depth. -/
theorem row_le (inv : Inv N t shape) {depth : Nat} (le : l + depth = shape.height)
    : (shape.row l).length ≤ (N + 1) ^ depth := by
  induction depth generalizing l with
  | zero =>
      obtain rfl : l = shape.height := le
      rw [inv.top]
      exact Nat.le_refl 1
  | succ depth ih =>
      rw [inv.below l (by omega), Nat.pow_succ]
      calc
        ((shape.row (l + 1)).flatMap t.children).length
        _ ≤ (shape.row (l + 1)).length * (N + 1) :=
          length_flatMap_le (fun p member => inv.children_le member)
        _ ≤ (N + 1) ^ depth * (N + 1) := Nat.mul_le_mul_right _ (ih (by omega))

/-- Below the root, which has at least two children, the rows grow by at least the factor of
the minimum, by induction on the depth.
-/
theorem row_ge (inv : Inv N t shape) (separated : ¬ t.BareRoot) {depth : Nat}
    (le : l + (depth + 1) = shape.height)
    : 2 * ((N - 1) / 2 + 1) ^ depth ≤ (shape.row l).length := by
  induction depth generalizing l with
  | zero =>
      have isRoot : t.root ∈ shape.row (l + 1) := by
        rw [show l + 1 = shape.height by omega]
        exact inv.root_mem
      obtain ⟨keys, children, kind⟩ := inv.internal_of_pos isRoot
      have length := (inv.content_internal isRoot kind).length
      have some : keys ≠ [] := fun none => separated ⟨children, none ▸ kind⟩
      have pos := List.length_pos_iff.mpr some
      have row : shape.row l = children := by
        rw [inv.below l (by omega), show l + 1 = shape.height by omega, inv.top]
        simp [Tree.children, kind]
      rw [row, Nat.pow_zero]
      omega
  | succ depth ih =>
      have above := ih (l := l + 1) (by omega)
      have notRoot {p : PageId} (member : p ∈ shape.row (l + 1)) : p ≠ t.root :=
        inv.ne_root member (by omega)
      rw [inv.below l (by omega), Nat.pow_succ, ← Nat.mul_assoc]
      calc
        2 * ((N - 1) / 2 + 1) ^ depth * ((N - 1) / 2 + 1)
        _ ≤ (shape.row (l + 1)).length * ((N - 1) / 2 + 1) := Nat.mul_le_mul_right _ above
        _ ≤ ((shape.row (l + 1)).flatMap t.children).length :=
          length_flatMap_ge (fun p member => inv.children_ge member (notRoot member))

/-- The records of a tree of at most so many levels. -/
theorem len_le (inv : Inv N t shape) : t.len ≤ N * (N + 1) ^ shape.height := by
  rw [inv.count, Nat.mul_comm]
  calc
    (t.records shape).length
    _ ≤ (shape.row 0).length * N := length_flatMap_le (fun p member => inv.entries_le member)
    _ ≤ (N + 1) ^ shape.height * N := Nat.mul_le_mul_right _ (inv.row_le (Nat.zero_add _))

/-- The records of a tree of at least two levels. -/
theorem len_ge (inv : Inv N t shape) (separated : ¬ t.BareRoot) {depth : Nat}
    (tall : shape.height = depth + 1)
    : 2 * (N / 2) * ((N - 1) / 2 + 1) ^ depth ≤ t.len := by
  have leaves : 2 * ((N - 1) / 2 + 1) ^ depth ≤ (shape.row 0).length :=
    inv.row_ge separated (by omega)
  have notRoot {p : PageId} (member : p ∈ shape.row 0) : p ≠ t.root :=
    inv.ne_root member (by omega)
  rw [inv.count]
  calc
    2 * (N / 2) * ((N - 1) / 2 + 1) ^ depth
    _ = 2 * ((N - 1) / 2 + 1) ^ depth * (N / 2) :=
      Nat.mul_right_comm 2 (N / 2) _
    _ ≤ (shape.row 0).length * (N / 2) := Nat.mul_le_mul_right _ leaves
    _ ≤ (t.records shape).length :=
      length_flatMap_ge (fun p member => inv.entries_ge member (notRoot member))

end Inv

/-- The loop of `height`, which goes down to the first child. -/
def Tree.heightFrom (t : Tree K V) : Nat → PageId → Nat → Option Nat
  | 0, _, _ => none
  | fuel + 1, node, height =>
      match (t.page node).kind with
      | .internal _ (child :: _) => t.heightFrom fuel child (height + 1)
      | .internal _ [] => none
      | .leaf _ => some height
      | .redirect target => t.heightFrom fuel target height

/-- The number of active page levels, when the loop of `height` takes no more than `fuel`
turns.
-/
def Tree.height (t : Tree K V) (fuel : Nat) : Option Nat := t.heightFrom fuel t.root 1

omit [TotalOrd K] in
/-- A loop that has returned needs no more turns, by induction on its turns. -/
theorem Tree.heightFrom_mono {t : Tree K V} {fuel more : Nat} {node : PageId}
    {height result : Nat} (returns : t.heightFrom fuel node height = some result)
    (le : fuel ≤ more)
    : t.heightFrom more node height = some result := by
  induction fuel generalizing more node height with
  | zero => cases returns
  | succ fuel ih =>
      obtain ⟨rest, rfl⟩ := Nat.exists_eq_succ_of_ne_zero (show more ≠ 0 by omega)
      rw [heightFrom] at returns ⊢
      split at returns
      · exact ih returns (by omega)
      · cases returns
      · exact returns
      · exact ih returns (by omega)

/-- From any page the loop takes one turn for each level, by induction on the level. -/
theorem Inv.heightFrom (inv : Inv N t shape) (member : p ∈ shape.row l) {fuel : Nat}
    (enough : l < fuel) (height : Nat)
    : t.heightFrom fuel p height = some (height + l) := by
  induction l generalizing p fuel height with
  | zero =>
      obtain ⟨entries, kind⟩ := inv.leaf_of_zero member
      obtain ⟨rest, rfl⟩ := Nat.exists_eq_succ_of_ne_zero (Nat.ne_of_gt enough)
      rw [Tree.heightFrom, kind]
      rfl
  | succ l ih =>
      obtain ⟨keys, children, kind⟩ := inv.internal_of_pos member
      obtain ⟨rest, rfl⟩ := Nat.exists_eq_succ_of_ne_zero (show fuel ≠ 0 by omega)
      cases children with
      | nil => cases (inv.content_internal member kind).length
      | cons child children =>
          have less : l < rest := by omega
          have below := ih (inv.child_mem member kind List.mem_cons_self) less (height + 1)
          rw [Tree.heightFrom, kind]
          rw [Nat.add_right_comm, Nat.add_assoc] at below
          exact below

/-- After every call of a single thread, the number `height` of levels is logarithmic in the
number of records: a tree of several levels has no fewer records than the minima demand, and
no tree has more than the capacities allow. An empty tree is a single root leaf.
-/
theorem height_logarithmic {N : PageCapacity} {s : System Unit K V}
    (reached : (System.transitions Unit K V N).Reachable s)
    (idle : (s.thread ()).status = .idle)
    : ∃ height records,
        (∀ fuel, height ≤ fuel → s.tree.height fuel = some height)
        ∧ records = ((s.tree.level (height - 1)).flatMap s.tree.entries).length
        ∧ s.tree.len = records
        ∧ (2 ≤ height
          → 2 * (N.size / 2) * ((N.size - 1) / 2 + 1) ^ (height - 2) ≤ records)
        ∧ records ≤ N.size * (N.size + 1) ^ (height - 1)
        ∧ (records = 0 → height = 1 ∧ (s.tree.page s.tree.root).kind = .leaf []) := by
  obtain ⟨shape, quiescent⟩ := single_thread_quiescent reached idle
  have inv := quiescent.inv
  have three := N.three_le
  have count : ((s.tree.level shape.height).flatMap s.tree.entries).length = s.tree.len := by
    rw [inv.level_eq (Nat.le_refl _), Nat.sub_self]
    exact inv.count.symm
  have lower {depth : Nat} (tall : shape.height = depth + 1)
      : 2 * (N.size / 2) * ((N.size - 1) / 2 + 1) ^ depth ≤ s.tree.len :=
    inv.len_ge quiescent.separated tall
  refine ⟨shape.height + 1, s.tree.len, ?_, count.symm, rfl, ?_, inv.len_le, ?_⟩
  · intro fuel enough
    rw [Tree.height, inv.heightFrom inv.root_mem (by omega), Nat.add_comm]
  · intro tall
    have above : shape.height = shape.height - 1 + 1 := by omega
    exact lower above
  · intro empty
    have single : shape.height = 0 := by
      by_contra tall
      have above : shape.height = shape.height - 1 + 1 := by omega
      have records := lower above
      have positive : 0 < 2 * (N.size / 2) * ((N.size - 1) / 2 + 1) ^ (shape.height - 1) :=
        Nat.mul_pos (by omega) (Nat.pow_pos (Nat.succ_pos _))
      omega
    have member := inv.root_mem
    rw [single] at member
    obtain ⟨entries, kind⟩ := inv.leaf_of_zero member
    refine ⟨by omega, ?_⟩
    have row : shape.row 0 = [s.tree.root] := single ▸ inv.top
    have none : entries.length = 0 := by
      rw [← empty, inv.count, Tree.records, row]
      simp [Tree.entries, kind]
    rw [kind, List.length_eq_zero_iff.mp none]

/-- Nine records fill three levels. -/
theorem height_logarithmic_three
    : ∃ s : System Unit Nat Nat,
        s.tree.height 3 = some 3 ∧ s.tree.len = 9 ∧ 2 * (3 / 2) * ((3 - 1) / 2 + 1) ≤ s.tree.len := by
  have plays : ((System.fresh : System Unit Nat Nat).replay .smallest [()]
      ([1, 2, 3].flatMap (fun key => Move.whole () (.insert key key) 3)
        ++ Move.whole () (.insert 4 4) 8 ++ Move.whole () (.insert 5 5) 9
        ++ Move.whole () (.insert 6 6) 9 ++ Move.whole () (.insert 7 7) 11
        ++ Move.whole () (.insert 8 8) 11 ++ Move.whole () (.insert 9 9) 12)).map
        (fun played => (played.2.isQuiet [()], played.2.tree.height 3, played.2.tree.len))
      = some (true, some 3, 9) := by
    decide +kernel
  obtain ⟨⟨trace, s⟩, replayed, checks⟩ := Option.map_eq_some_iff.mp plays
  simp only [Prod.mk.injEq] at checks
  obtain ⟨quiet, three, len⟩ := checks
  obtain ⟨height, records, returns, -, count, lower, -⟩ := height_logarithmic
    (System.reachable_of_replay (fun _ => List.mem_cons_self) replayed)
    (System.idle_of_isQuiet (fun _ => List.mem_cons_self) quiet ())
  refine ⟨s, three, len, ?_⟩
  have isThree : height = 3 := by
    have grown := Tree.heightFrom_mono three (Nat.le_max_left 3 height)
    exact Option.some.inj ((returns _ (Nat.le_max_right 3 height)).symm.trans grown)
  subst isThree
  rw [count]
  exact lower (by omega)

end BLink
