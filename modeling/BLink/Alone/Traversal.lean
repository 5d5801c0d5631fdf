import BLink.Alone.Completion
import BLink.Runs.Ownership

/-! Traversals that go on alone reach the owner of their key from every page.
All hops lead ahead in the order of the pages, so that they come to an end; and from the root
on, no page on the way begins above the key.
-/

namespace BLink

open Library

variable {ι K V : Type} [TotalOrd K]

/-- `leaf_read_for` as it goes on from the page `node` while nothing else runs: how often it
starts again from the root, and the leaf that it ends at.
-/
def Tree.leafReadFor (t : Tree K V) (task : Task K V) : Nat → PageId → Option (Nat × PageId)
  | 0, _ => none
  | fuel + 1, node =>
      match t.leafRead task node with
      | .error _ => none
      | .ok (.leafRoot _) =>
          (t.leafReadFor task fuel t.root).map (fun (restarts, leaf) => (restarts + 1, leaf))
      | .ok (.leafRead _ next) => t.leafReadFor task fuel next
      | .ok _ => some (0, node)

variable {N : Nat} {t : Tree K V} {shape : Shape} {levels : Levels PageId} {l : Nat}
  {p q next : PageId} {key : Query K}

/-- Every hop leads ahead. -/
theorem Moves.ahead {ready : PageId → Prop} (moves : Moves t shape ready key p next)
    (inv : Inv N t shape) (ordered : Ordered t shape levels)
    : levels.Ahead p next := by
  cases moves with
  | forward retired => exact ordered.forward p next retired
  | right member points => exact .inl (ordered.right p next (inv.allocated member) points)
  | @child l _ owns inner =>
      exact .inr ⟨l + 1, l, Nat.lt_succ_self l, ordered.mem_line owns.member,
        ordered.mem_line inner.member⟩

/-- The active page that `p` leads to does not begin above the key. -/
def NotPast (t : Tree K V) (shape : Shape) (key : Query K) (p : PageId) : Prop :=
  ∃ l, ∃ s ∈ shape.row l, Resolves t.forward p s ∧ ¬ Under (t.low s) key

/-- The root covers every key. -/
theorem Inv.root_owns (inv : Inv N t shape) (key : Query K)
    : OwnsAt t shape shape.height t.root key where
  member := inv.root_mem
  covers := by
    rw [inv.root_low, inv.root_high]
    exact ⟨nofun, nofun⟩

theorem OwnsAt.notPast (owns : OwnsAt t shape l p key) (inv : Inv N t shape)
    : NotPast t shape key p := by
  refine ⟨l, p, owns.member, .settled (inv.active owns.member).2, ?_⟩
  exact fun under => under.not_covers owns.covers

/-- No hop passes the key. -/
theorem NotPast.moves {ready : PageId → Prop} (notPast : NotPast t shape key p)
    (moves : Moves t shape ready key p next) (inv : Inv N t shape)
    : NotPast t shape key next := by
  cases moves with
  | forward retired =>
      obtain ⟨l, s, member, resolves, low⟩ := notPast
      exact ⟨l, s, member, resolves.of_forward retired, low⟩
  | @right l _ successor member points inRow resolves beyond =>
      refine ⟨l, successor, inRow, resolves, ?_⟩
      -- The successor begins where `p` ends.
      obtain ⟨s, _, leads, fences, -⟩ := inv.exists_successor member points
      obtain rfl := leads.unique resolves
      rw [← fences]
      intro under
      obtain ⟨bound, isHigh, notLower⟩ := beyond
      obtain ⟨lowest, isLow, lower⟩ := under
      obtain rfl := Option.mem_unique isHigh isLow
      exact notLower lower
  | child _ inner _ => exact inner.notPast inv

/-- Such a page does not send the traversal back to the root. -/
theorem NotPast.not_under (notPast : NotPast t shape key p) (inv : Inv N t shape)
    (member : p ∈ shape.row l)
    : ¬ Under (t.low p) key := by
  obtain ⟨_, s, _, resolves, low⟩ := notPast
  rwa [resolves.eq_of_settled (inv.active member).2] at low

/-- The traversal is at the leaf that owns its key. -/
def Arrives (t : Tree K V) (shape : Shape) (task : Task K V) (p : PageId) (pc : Pc K V)
    : Prop :=
  OwnsAt t shape 0 p task.key ∧ (∀ task, pc ≠ .leafRoot task) ∧ ∀ task q, pc ≠ .leafRead task q

/-- A turn of the loop starts again, hops on, or has found the leaf. -/
theorem Reads.leafRead_cases {task : Task K V} {pc : Pc K V}
    (reads : Reads t shape (.leafRead task p) pc)
    : (∃ l, p ∈ shape.row l ∧ Under (t.low p) task.key ∧ pc = .leafRoot task)
      ∨ (∃ next, Moves t shape (fun _ => True) task.key p next ∧ pc = .leafRead task next)
      ∨ Arrives t shape task p pc := by
  cases reads with
  | restart member under => exact .inl ⟨_, member, under, rfl⟩
  | descend moves => exact .inr (.inl ⟨_, moves, rfl⟩)
  | exclusive owns => exact .inr (.inr ⟨owns, nofun, nofun⟩)
  | get owns | containsKey owns =>
      exact .inr (.inr ⟨⟨owns.member, owns.covers⟩, nofun, nofun⟩)
  | seekFound member _ _ source | seekNext member _ _ _ _ _ _ source
  | seekEnd member _ _ _ source =>
      cases source with
      | inl inside =>
          obtain ⟨same, covers⟩ := inside
          cases same
          exact .inr (.inr ⟨⟨member, covers⟩, nofun, nofun⟩)
      | inr other => cases other

/-- At its leaf, an update goes on to write. -/
theorem Arrives.writes {task : WriteTask K V} {pc : Pc K V}
    (arrives : Arrives t shape (.write task) p pc)
    (reads : Reads t shape (.leafRead (.write task) p) pc)
    : pc = .leafWrite task p := by
  obtain ⟨-, notRoot, notRead⟩ := arrives
  cases reads with
  | restart => exact absurd rfl (notRoot _)
  | descend => exact absurd rfl (notRead _ _)
  | exclusive => rfl
  | seekFound _ _ _ source | seekNext _ _ _ _ _ _ _ source | seekEnd _ _ _ _ source =>
      cases source with
      | inl inside => cases inside.1
      | inr other => cases other

-----------------------------------------------------------------------------------------
-- Whole traversals
-----------------------------------------------------------------------------------------

/-- With enough fuel the traversal from `p` ends at the leaf. -/
def Finds (t : Tree K V) (task : Task K V) (p : PageId) (restarts : Nat) (leaf : PageId)
    (enough : Nat)
    : Prop :=
  ∀ fuel, enough ≤ fuel → t.leafReadFor task fuel p = some (restarts, leaf)

section

variable {task : Task K V} {restarts enough : Nat} {leaf : PageId}

theorem Finds.hop (finds : Finds t task next restarts leaf enough)
    (result : t.leafRead task p = .ok (.leafRead task next))
    : Finds t task p restarts leaf (enough + 1) := by
  intro fuel bound
  obtain ⟨fuel, rfl⟩ := Nat.exists_eq_add_of_le' bound
  rw [← Nat.add_assoc, Tree.leafReadFor, result]
  exact finds _ (Nat.le_add_left _ _)

theorem Finds.again (finds : Finds t task t.root restarts leaf enough)
    (result : t.leafRead task p = .ok (.leafRoot task))
    : Finds t task p (restarts + 1) leaf (enough + 1) := by
  intro fuel bound
  obtain ⟨fuel, rfl⟩ := Nat.exists_eq_add_of_le' bound
  rw [← Nat.add_assoc, Tree.leafReadFor, result]
  simp only [finds _ (Nat.le_add_left enough fuel), Option.map_some]

theorem Arrives.finds {pc : Pc K V} (arrives : Arrives t shape task p pc)
    (result : t.leafRead task p = .ok pc)
    : Finds t task p 0 p 1 := by
  intro fuel bound
  obtain ⟨fuel, rfl⟩ := Nat.exists_eq_add_of_le' bound
  obtain ⟨-, notRoot, notRead⟩ := arrives
  rw [Tree.leafReadFor, result]
  cases pc with
  | leafRoot task => exact absurd rfl (notRoot task)
  | leafRead task next => exact absurd rfl (notRead task next)
  | _ => rfl

theorem Finds.mono {more : Nat} (finds : Finds t task p restarts leaf enough)
    (le : enough ≤ more)
    : Finds t task p restarts leaf more :=
  fun fuel bound => finds fuel (le.trans bound)

end

variable {rank : PageId → Nat} {task : Task K V}

/-- Once no page on the way begins above the key, the traversal goes straight to the owner, by
induction on the pages ahead.
-/
theorem NotPast.finds (inv : Inv N t shape) (ordered : Ordered t shape levels)
    (lower : ∀ p q, q < t.pages → levels.Ahead p q → rank q < rank p)
    (allocated : p < t.pages) (notPast : NotPast t shape task.key p)
    : ∃ leaf, OwnsAt t shape 0 leaf task.key ∧ Finds t task p 0 leaf (rank p + 1) := by
  induction size : rank p using Nat.strong_induction_on generalizing p with
  | _ n ih =>
      obtain ⟨pc, result, reads⟩ := leafRead_ok inv task allocated
      rcases reads.leafRead_cases with ⟨_, member, under, -⟩ | ⟨next, moves, rfl⟩ | arrives
      · exact absurd under (notPast.not_under inv member)
      · have bound := moves.allocated inv
        have less := lower p next bound (moves.ahead inv ordered)
        obtain ⟨leaf, owns, finds⟩ :=
          ih (rank next) (size ▸ less) bound (notPast.moves moves inv) rfl
        exact ⟨leaf, owns, (finds.hop result).mono (by omega)⟩
      · exact ⟨p, arrives.1, (arrives.finds result).mono (by omega)⟩

/-- From any page the traversal finds the owner, and restarts at most once. -/
theorem exists_finds (task : Task K V) (inv : Inv N t shape) (ordered : Ordered t shape levels)
    (lower : ∀ p q, q < t.pages → levels.Ahead p q → rank q < rank p)
    (allocated : p < t.pages)
    : ∃ restarts leaf,
        restarts ≤ 1
        ∧ OwnsAt t shape 0 leaf task.key
        ∧ Finds t task p restarts leaf (rank p + rank t.root + 2) := by
  induction size : rank p using Nat.strong_induction_on generalizing p with
  | _ n ih =>
      obtain ⟨pc, result, reads⟩ := leafRead_ok inv task allocated
      rcases reads.leafRead_cases with ⟨_, _, _, rfl⟩ | ⟨next, moves, rfl⟩ | arrives
      · have notPast := (inv.root_owns task.key).notPast inv
        obtain ⟨leaf, owns, finds⟩ := notPast.finds inv ordered lower inv.root_active.1
        exact ⟨1, leaf, Nat.le_refl 1, owns, (finds.again result).mono (by omega)⟩
      · have bound := moves.allocated inv
        have less := lower p next bound (moves.ahead inv ordered)
        obtain ⟨restarts, leaf, once, owns, finds⟩ := ih (rank next) (size ▸ less) bound rfl
        exact ⟨restarts, leaf, once, owns, (finds.hop result).mono (by omega)⟩
      · exact ⟨0, p, Nat.zero_le 1, arrives.1, (arrives.finds result).mono (by omega)⟩

/-- A descent finishes when it does from the leaf that it arrives at. -/
theorem finishes_leafRead {passes : Nat} (inv : Inv N t shape) (ordered : Ordered t shape levels)
    (arrived
      : ∀ leaf pc',
          Reads t shape (.leafRead task leaf) pc' → Arrives t shape task leaf pc'
          → Finishes N passes t pc')
    (allocated : p < t.pages)
    : Finishes N passes t (.leafRead task p) := by
  obtain ⟨rank, -, lower⟩ := levels.exists_rank t.pages
  obtain ⟨restarts, leaf, -, -, finds⟩ :=
    exists_finds task inv ordered lower allocated
  have found := finds _ (Nat.le_refl _)
  clear finds
  generalize rank p + rank t.root + 2 = fuel at found
  induction fuel generalizing p restarts with
  | zero => cases found
  | succ fuel ih =>
      obtain ⟨pc', result, reads⟩ := leafRead_ok inv task allocated
      rw [Tree.leafReadFor, result] at found
      refine .pass rfl (Nat.le_refl _) (fun upgraded => ⟨t, pc', ?_, ?_⟩)
      · simp only [Tree.latchedSection, result, ok_bind]
        rfl
      · rcases reads.leafRead_cases with ⟨_, _, _, rfl⟩ | ⟨next, moves, rfl⟩ | arrives
        · obtain ⟨⟨others, last⟩, later, same⟩ := Option.map_eq_some_iff.mp found
          obtain ⟨-, rfl⟩ := Prod.mk.injEq _ _ _ _ ▸ same
          refine ⟨rfl, .pass rfl (Nat.le_refl _) (fun upgraded => ⟨t, _, rfl, rfl, ?_⟩)⟩
          exact ih inv.root_active.1 others later
        · exact ⟨rfl, ih (moves.allocated inv) restarts found⟩
        · exact ⟨rfl, arrived p pc' reads arrives⟩

theorem finishes_leafRoot {passes : Nat} (inv : Inv N t shape) (ordered : Ordered t shape levels)
    (arrived
      : ∀ leaf pc',
          Reads t shape (.leafRead task leaf) pc' → Arrives t shape task leaf pc'
          → Finishes N passes t pc')
    : Finishes N passes t (.leafRoot task) :=
  .pass rfl (Nat.le_refl _) (fun _ =>
    ⟨t, _, rfl, rfl, finishes_leafRead inv ordered arrived inv.root_active.1⟩)

/-- A leaf update finishes when it does from the leaf that owns its key. -/
theorem finishes_descent {passes : Nat} (inv : Inv N t shape) (ordered : Ordered t shape levels)
    {task : WriteTask K V}
    (arrived
      : ∀ leaf, OwnsAt t shape 0 leaf task.key → Finishes N passes t (.leafWrite task leaf))
    : Finishes N passes t (.leafRoot (.write task)) := by
  refine finishes_leafRoot inv ordered ?_
  intro leaf pc' reads arrives
  rw [arrives.writes reads]
  exact arrived leaf arrives.1

variable [DecidableEq ι] {capacity : PageCapacity} {s : System ι K V}

/-- In every reachable state, the traversal that goes on alone from any page that was ever
allocated restarts at most once, and ends at the one active leaf whose fences contain the
key, after at most two hops for each page.
-/
theorem stale_route_finds_owner
    (reached : (System.transitions ι K V capacity).Reachable s) (task : Task K V)
    {p : PageId} (allocated : p < s.tree.pages)
    : ∃ restarts leaf,
        (∀ fuel,
          2 * s.tree.pages + 2 ≤ fuel
          → s.tree.leafReadFor task fuel p = some (restarts, leaf))
        ∧ restarts ≤ 1
        ∧ ∀ q,
            q = leaf
            ↔ s.tree.Active q
              ∧ (s.tree.page q).kind.isLeaf
              ∧ Covers (s.tree.low q) (s.tree.high q) task.key := by
  obtain ⟨shape, levels, arranged⟩ := reachable_arranged reached
  have inv := arranged.ok.inv
  obtain ⟨rank, most, lower⟩ := levels.exists_rank s.tree.pages
  obtain ⟨restarts, leaf, once, owns, finds⟩ :=
    exists_finds task inv arranged.ordered lower allocated
  have bound := most p
  have rootBound := most s.tree.root
  refine ⟨restarts, leaf, finds.mono (by omega), once, fun q => ?_⟩
  constructor
  · rintro rfl
    exact ⟨inv.active owns.member, ((inv.page 0 q owns.member).leaf_iff).mpr rfl, owns.covers⟩
  · rintro ⟨active, isLeaf, covers⟩
    obtain ⟨l, member⟩ := (inv.active_iff q).mp active
    obtain rfl := ((inv.page l q member).leaf_iff).mp isLeaf
    exact inv.owner_unique member owns.member covers owns.covers

/-- From a leaf that was merged away, a lookup of a key far to its left. -/
theorem stale_route_finds_owner_retired
    : ∃ (trace : List (Transition (System (Fin 2) Nat Nat) (Label (Fin 2) Nat Nat)))
        (s : System (Fin 2) Nat Nat) (leaf : PageId),
        (System.transitions (Fin 2) Nat Nat .smallest).Run System.fresh trace s
        ∧ s.tree.forward 2 = some 3
        ∧ s.tree.leafReadFor (.read (.get (.ofKey 1))) 12 2 = some (1, leaf)
        ∧ Covers (s.tree.low leaf) (s.tree.high leaf) (.ofKey 1) := by
  have plays : ((System.fresh : System (Fin 2) Nat Nat).replay .smallest [0, 1]
      ([1, 2, 3].flatMap (fun key => Move.whole 0 (.insert key key) 3)
        ++ Move.whole 0 (.insert 4 4) 8 ++ Move.whole 0 (.insert 5 5) 9
        ++ Move.whole 1 (.insert 6 6) 9 ++ Move.whole 0 (.remove (.ofKey 6)) 4
        ++ Move.whole 0 (.remove (.ofKey 5)) 4 ++ Move.whole 1 (.remove (.ofKey 3)) 11)).map
          (fun played =>
            (
              played.2.tree.forward 2,
              played.2.tree.pages,
              (played.2.tree.leafReadFor (.read (.get (.ofKey 1))) 12 2).map Prod.fst
            ))
      = some (some 3, 5, some 1) := by
    decide +kernel
  obtain ⟨⟨trace, s⟩, replayed, checks⟩ := Option.map_eq_some_iff.mp plays
  simp only [Prod.mk.injEq] at checks
  obtain ⟨retired, pages, again⟩ := checks
  obtain ⟨restarts, leaf, finds, -, owner⟩ :=
    stale_route_finds_owner (System.reachable_of_replay (by decide) replayed)
      (.read (.get (.ofKey 1))) (p := 2) (by rw [pages]; decide)
  have found := finds 12 (by rw [pages])
  rw [found, Option.map_some, Option.some.injEq] at again
  subst again
  exact ⟨trace, s, leaf, System.run_of_replay (by decide) replayed, retired, found,
    ((owner leaf).mp rfl).2.2⟩

end BLink
