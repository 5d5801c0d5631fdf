import BLink.Runs.Ownership
import BLink.Sequential.Handles
import BLink.Sequential.Heights
import BLink.Validation.Runs

/-! The pages that a map keeps when nobody uses it.
If all sibling links are exact, no retired page is left, and the pages in use are few: every
internal page has at least two children, so that there are more leaves than other pages, and
every leaf is filled to the minimum.
-/

namespace BLink

open Library

variable {ι K V : Type} [TotalOrd K] {N : Nat} {t : Tree K V} {shape : Shape} {l : Nat} {p : PageId}

-----------------------------------------------------------------------------------------
-- The pages in use
-----------------------------------------------------------------------------------------

/-- All pages of a shape, level by level. -/
def Shape.pages (shape : Shape) : List PageId :=
  (List.range (shape.height + 1)).flatMap shape.row

namespace Inv

theorem mem_pages (inv : Inv N t shape) : p ∈ shape.pages ↔ t.Active p := by
  rw [Shape.pages, List.mem_flatMap, inv.active_iff]
  constructor
  · rintro ⟨l, -, member⟩
    exact ⟨l, member⟩
  · rintro ⟨l, member⟩
    exact ⟨l, List.mem_range.mpr (Nat.lt_succ_of_le (inv.le_height member)), member⟩

theorem pages_nodup (inv : Inv N t shape) : shape.pages.Nodup := by
  refine List.nodup_flatMap.mpr ⟨fun l _ => inv.row_nodup l, ?_⟩
  refine List.nodup_range.imp (fun differs p inFirst inSecond => ?_)
  exact differs (inv.level_unique inFirst inSecond)

/-- The rows at least halve from one level to the next, unless the root is bare. -/
theorem row_halves (inv : Inv N t shape) (three : 3 ≤ N) (separated : ¬ t.BareRoot)
    (less : l < shape.height)
    : (shape.row (l + 1)).length * 2 ≤ (shape.row l).length := by
  rw [inv.below l less]
  refine length_flatMap_ge (fun p member => ?_)
  by_cases isRoot : p = t.root
  · subst isRoot
    obtain ⟨keys, children, kind⟩ := inv.internal_of_pos member
    have length := (inv.content_internal member kind).length
    have some : keys ≠ [] := fun none => separated ⟨children, none ▸ kind⟩
    have pos := List.length_pos_iff.mpr some
    rw [Tree.children, kind, NodeKind.children, length]
    omega
  · have enough := inv.children_ge member isRoot
    omega

/-- Up to every level there are fewer pages than twice the leaves, by induction on the level. -/
theorem pages_below (inv : Inv N t shape) (three : 3 ≤ N) (separated : ¬ t.BareRoot)
    (le : l ≤ shape.height)
    : ((List.range l).flatMap shape.row).length + (shape.row l).length * 2
      ≤ (shape.row 0).length * 2 := by
  induction l with
  | zero => exact Nat.le_of_eq (Nat.zero_add _)
  | succ l ih =>
      have below := ih (by omega)
      have halves := inv.row_halves three separated le
      rw [List.range_succ, List.flatMap_append, List.length_append, List.flatMap_singleton]
      omega

/-- A tree is a single leaf, or its leaves bound the number of its pages. -/
theorem pages_le (inv : Inv N t shape) (three : 3 ≤ N) (separated : ¬ t.BareRoot)
    : shape.pages.length = 1 ∨ (shape.pages.length + 1) * (N / 2) ≤ 2 * t.len := by
  have below := inv.pages_below three separated (Nat.le_refl _)
  have pages : shape.pages.length + 1
      = ((List.range shape.height).flatMap shape.row).length + 2 := by
    rw [Shape.pages, List.range_succ, List.flatMap_append, List.length_append,
      List.flatMap_singleton, inv.top]
    rfl
  rw [inv.top] at below
  cases height : shape.height with
  | zero =>
      rw [height] at pages
      exact .inl (Nat.succ.inj pages)
  | succ depth =>
      have leaves : (shape.row 0).length * (N / 2) ≤ t.len := by
        rw [inv.count]
        exact length_flatMap_ge
          fun q member => inv.entries_ge member (inv.ne_root member (by omega))
      refine .inr ?_
      calc
        (shape.pages.length + 1) * (N / 2)
        _ ≤ (shape.row 0).length * 2 * (N / 2) := Nat.mul_le_mul_right _ (pages ▸ below)
        _ = 2 * ((shape.row 0).length * (N / 2)) := by rw [Nat.mul_comm _ 2, Nat.mul_assoc]
        _ ≤ 2 * t.len := Nat.mul_le_mul_left 2 leaves

end Inv

-----------------------------------------------------------------------------------------
-- The pages that are alive
-----------------------------------------------------------------------------------------

omit [TotalOrd K] in
/-- The right link of a page in a chain leads to a page of the chain. -/
theorem Tree.Chained.right_mem {previous : Option PageId} {pages : List PageId} {q : PageId}
    (chained : t.Chained previous pages) (member : p ∈ pages)
    (points : (t.page p).right = some q)
    : q ∈ pages := by
  induction pages generalizing previous with
  | nil => cases member
  | cons first rest ih =>
      obtain ⟨-, right, later⟩ := chained
      cases List.mem_cons.mp member with
      | inl same =>
          subst same
          exact List.mem_cons_of_mem p (List.mem_of_head? (right.symm.trans points))
      | inr inRest => exact List.mem_cons_of_mem first (ih later inRest)

/-- If all sibling links are exact, right links lead to pages in use. -/
theorem Inv.active_of_chained (inv : Inv N t shape)
    (chained : ∀ depth, t.Chained none (t.level depth)) {q : PageId} (active : t.Active p)
    (points : (t.page p).right = some q)
    : t.Active q := by
  obtain ⟨depth, member⟩ := inv.active_iff_level.mp active
  exact inv.active_iff_level.mpr ⟨depth, (chained depth).right_mem member points⟩

/-- The pages that are alive are those in use, and there is a single one, or their leaves, which
are more than half of them, are filled to the minimum.
-/
structure System.Compact (N : PageCapacity) (s : System ι K V) : Prop where
  alive_iff : ∀ p, s.Alive p ↔ s.tree.Active p
  few
    : ∃ pages : List PageId,
        pages.Nodup
        ∧ (∀ p, p ∈ pages ↔ s.Alive p)
        ∧ (pages.length = 1 ∨ (pages.length + 1) * (N.size / 2) ≤ 2 * s.tree.len)

variable {N : PageCapacity} {s : System ι K V}

theorem Inv.compact (inv : Inv N.size s.tree shape) (separated : ¬ s.tree.BareRoot)
    (idle : ∀ θ, (s.thread θ).status = .idle)
    (linked : ∀ p q, s.tree.Active p → (s.tree.page p).right = some q → s.tree.Active q)
    : s.Compact N := by
  have alive (p : PageId) : s.Alive p ↔ s.tree.Active p := by
    rw [System.alive_iff_of_idle idle]
    exact ⟨inv.active_of_path linked, inv.root_leads⟩
  refine ⟨alive, shape.pages, inv.pages_nodup, fun p => ?_, inv.pages_le N.three_le separated⟩
  rw [alive]
  exact inv.mem_pages

variable [DecidableEq ι] {upgrades : PageId → Bool} {fuel : Nat}

/-- Whatever threads have done, when no call is under way and `validate` accepts the tree, no
retired page is alive any more, and the pages are few for the number of records.
-/
theorem accepted_tree_compact (reached : (System.transitions ι K V N).Reachable s)
    (idle : ∀ θ, (s.thread θ).status = .idle)
    (accepts : s.tree.validate N.size upgrades fuel = .ok ())
    : s.Compact N := by
  obtain ⟨shape, ok⟩ := reachable_ok reached
  obtain ⟨height, -, accepted⟩ := Tree.validate_eq_ok.mp accepts
  have three := N.three_le
  have chained := ok.inv.chained_of_accepted (by omega) accepted
  exact ok.inv.compact accepted.checked.separated idle
    (fun p q active points => ok.inv.active_of_chained chained active points)

/-- Two threads have filled three leaves, and one of them has merged two. -/
theorem accepted_tree_compact_merged
    : ∃ s : System (Fin 2) Nat Nat,
        s.tree.forward 2 = some 3 ∧ ¬ s.Alive 2 ∧ s.Compact .smallest := by
  have plays : ((System.fresh : System (Fin 2) Nat Nat).replay .smallest [0, 1]
      ([1, 2, 3].flatMap (fun key => Move.whole 0 (.insert key key) 3)
        ++ Move.whole 0 (.insert 4 4) 8 ++ Move.whole 0 (.insert 5 5) 9
        ++ Move.whole 1 (.insert 6 6) 9 ++ Move.whole 0 (.remove (.ofKey 6)) 4
        ++ Move.whole 0 (.remove (.ofKey 5)) 4 ++ Move.whole 1 (.remove (.ofKey 3)) 11)).map
          (fun played =>
            (
              played.2.isQuiet [0, 1],
              played.2.tree.validate 3 (fun _ => true) 3,
              played.2.tree.forward 2
            ))
      = some (true, .ok (), some 3) := by
    decide +kernel
  obtain ⟨⟨trace, s⟩, replayed, state⟩ := Option.map_eq_some_iff.mp plays
  simp only [Prod.mk.injEq] at state
  obtain ⟨quiet, accepts, retired⟩ := state
  have compact : s.Compact .smallest :=
    accepted_tree_compact (System.reachable_of_replay (by decide) replayed)
      (System.idle_of_isQuiet (by decide) quiet) accepts
  refine ⟨s, retired, fun alive => ?_, compact⟩
  have active := ((compact.alive_iff 2).mp alive).2
  rw [retired] at active
  cases active

/-- After every call of a single thread no retired page is alive any more, and the pages are few
for the number of records.
-/
theorem single_thread_compact {s : System Unit K V}
    (reached : (System.transitions Unit K V N).Reachable s) (idle : (s.thread ()).status = .idle)
    : s.Compact N := by
  obtain ⟨shape, quiescent⟩ := single_thread_quiescent reached idle
  have inv := quiescent.inv
  exact inv.compact quiescent.separated (fun _ => idle)
    (fun p q => inv.active_of_right quiescent.exact)

/-- A removal has merged the only two leaves, and made the survivor the root. -/
theorem single_thread_compact_shrunk
    : ∃ s : System Unit Nat Nat,
        s.tree.root = 2 ∧ s.tree.pages = 3 ∧ s.tree.forward 0 = some 2 ∧ s.Compact .smallest := by
  have plays : ((System.fresh : System Unit Nat Nat).replay .smallest [()]
      ([1, 2, 3].flatMap (fun key => Move.whole () (.insert key key) 3)
        ++ Move.whole () (.insert 4 4) 8 ++ Move.whole () (.remove (.ofKey 4)) 4
        ++ Move.whole () (.remove (.ofKey 3)) 4 ++ Move.whole () (.remove (.ofKey 2)) 12)).map
        (fun played =>
          (
            played.2.isQuiet [()],
            played.2.tree.root,
            played.2.tree.pages,
            played.2.tree.forward 0
          ))
      = some (true, 2, 3, some 2) := by
    decide +kernel
  obtain ⟨⟨trace, s⟩, replayed, state⟩ := Option.map_eq_some_iff.mp plays
  simp only [Prod.mk.injEq] at state
  obtain ⟨quiet, root, pages, retired⟩ := state
  exact ⟨s, root, pages, retired,
    single_thread_compact (System.reachable_of_replay (fun _ => List.mem_cons_self) replayed)
      (System.idle_of_isQuiet (fun _ => List.mem_cons_self) quiet ())⟩

end BLink
