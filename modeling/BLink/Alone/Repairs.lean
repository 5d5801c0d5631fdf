import BLink.Alone.Completion
import BLink.Runs.Ownership
import Mathlib.Algebra.Order.BigOperators.Group.Finset

/-! The link repair after a merge, when it runs alone, comes to an end.
Skipping a retired page shortens a right link, which can happen finitely often. In between,
the walk goes from retired pages to active ones and from these to the right: back links of
retired pages lead left of every page from which the walk came there by forwarding, so that
it never goes around in a circle.
-/

namespace BLink

open Library

variable {K V : Type} [TotalOrd K]

variable {N passes : Nat} {t t' : Tree K V} {shape : Shape} {levels : Levels PageId}
  {ahead back : PageId → Nat} {key : Query K} {repair : MergeRepair} {target p q w : PageId}

-----------------------------------------------------------------------------------------
-- How a walk makes progress
-----------------------------------------------------------------------------------------

/-- `ahead` falls along all links but back links, and `back` falls to the left and down. -/
structure Ranks (levels : Levels PageId) (bound : Nat) (ahead back : PageId → Nat) : Prop where
  ahead : ∀ p q, q < bound → levels.Ahead p q → ahead q < ahead p
  back : ∀ p q, q < bound → levels.mirror.Ahead p q → back q < back p

theorem exists_ranks (levels : Levels PageId) (bound : Nat)
    : ∃ ahead back, Ranks levels bound ahead back := by
  obtain ⟨ahead, -, aheadLower⟩ := levels.exists_rank bound
  obtain ⟨back, -, backLower⟩ := levels.mirror.exists_rank bound
  exact ⟨ahead, back, aheadLower, backLower⟩

/-- How far all right links lead. -/
def reach (ahead : PageId → Nat) (t : Tree K V) : Nat :=
  ∑ p ∈ Finset.range t.pages, (t.page p).right.elim 0 ahead

/-- A repair that goes on from any page comes to an end. -/
def Walks (N passes : Nat) (t : Tree K V) (key : Query K) (repair : MergeRepair)
    (target : PageId)
    : Prop :=
  ∀ cursor held,
    cursor < t.pages → Finishes N passes t (.mergeWalk key repair cursor target held)

/-- The pass goes on at `target` in every tree that repairs of links can leave. -/
def Resumes (N passes : Nat) (t : Tree K V) (shape : Shape) (levels : Levels PageId)
    (key : Query K) (target : PageId)
    : Prop :=
  ∀ t',
    Relinked t t' shape → Inv N t' shape → Ordered t' shape levels
    → Finishes N passes t' (.removeAttempt key target)

omit [TotalOrd K] in
/-- A shorter right link makes all links together reach less far. -/
theorem reach_shorten {shorter : PageId} (allocated : p < t.pages)
    (points : (t.page p).right = some q) (less : ahead shorter < ahead q)
    : reach ahead (t.setRight p (some shorter)) < reach ahead t := by
  refine Finset.sum_lt_sum ?_ ⟨p, Finset.mem_range.mpr allocated, ?_⟩
  · intro x _
    rw [Tree.setRight_right]
    split_ifs with here
    · rw [here, points]
      exact Nat.le_of_lt less
    · exact Nat.le_refl _
  · rw [Tree.setRight_right, if_pos rfl, points]
    exact less

/-- The repair leaves the survivor without a predecessor, and the pass goes on. -/
theorem finishes_mergeClear (inv : Inv N t shape) (ordered : Ordered t shape levels)
    (resumes : Resumes N passes t shape levels key target) {held : List PageId}
    : Finishes N passes t (.mergeClear key repair target held) := by
  have relinked : Relinked t (t.setPrevious repair.survivor none) shape :=
    .of_setPrevious (by rintro _ ⟨⟩) inv.previous
  exact .pass rfl (Nat.le_refl _) (fun upgraded =>
    ⟨_, _, rfl, rfl, resumes _ relinked (relinked.preserves inv) (ordered.clear inv)⟩)

theorem mergeWalk_section (inv : Inv N t shape) (held : List PageId) (upgraded : Bool)
    (ok : RepairOk t repair target) (allocated : p < t.pages)
    : ∃ t' pc',
        t.latchedSection N true upgraded (.mergeWalk key repair p target held) = .ok (t', pc')
        ∧ Repairs t shape upgraded (.mergeWalk key repair p target held) t' pc' :=
  ⟨_, _, rfl, mergeWalk_ok inv key held upgraded ok allocated⟩

/-- From an active page the walk goes right until it skips a retired page or ends. -/
theorem finishes_mergeWalk_active (inv : Inv N t shape) (ordered : Ordered t shape levels)
    (ranks : Ranks levels t.pages ahead back) (ok : RepairOk t repair target)
    (resumes : Resumes N passes t shape levels key target)
    (shorter
      : ∀ t',
          Relinked t t' shape → Ordered t' shape levels → reach ahead t' < reach ahead t
          → Walks N passes t' key repair target)
    (active : t.Active p) (held : List PageId)
    : Finishes N passes t (.mergeWalk key repair p target held) := by
  induction size : ahead p using Nat.strong_induction_on generalizing p with
  | _ n ih =>
      refine .pass rfl (Nat.le_refl _) (fun upgraded => ?_)
      obtain ⟨t', pc', result, repairs⟩ := mergeWalk_section inv held upgraded ok active.1
      refine ⟨t', pc', result, ?_⟩
      cases repairs with
      | back retired =>
          rw [active.2] at retired
          cases retired
      | ends => exact ⟨rfl, finishes_mergeClear inv ordered resumes⟩
      | @onward _ _ _ _ _ _ next _ member points isActive =>
          obtain ⟨s, inRow, resolves, -⟩ := inv.exists_successor member points
          obtain rfl := resolves.eq_of_settled isActive
          have left := ordered.right p s active.1 points
          have less := ranks.ahead p s (inv.allocated inRow) (.inl left)
          exact ⟨rfl, ih (ahead s) (size ▸ less) (inv.active inRow) rfl⟩
      | @compacted _ _ _ _ _ _ next short resume _ member points skips =>
          have relinked : Relinked t (t.setRight p (some short)) shape :=
            .of_setRight points (fun _ => skips.resolves) inv.previous
          have lower {x y : PageId} (forwards : t.forward x = some y) : ahead y < ahead x :=
            ranks.ahead x y (inv.forwards x y forwards).2 (ordered.forward x y forwards)
          have less : ahead short < ahead next := by
            cases skips with
            | one retired => exact lower retired
            | two retired also => exact (lower also).trans (lower retired)
          refine ⟨rfl, shorter _ relinked (ordered.shorten inv member points skips)
            (reach_shorten active.1 points less) resume held ?_⟩
          rw [relinked.pages]
          cases skips with
          | one _ => exact active.1
          | two _ also => exact (inv.forwards _ _ also).2
      | completed member points resolves =>
          have relinked := Relinked.of_link inv member points resolves
          exact ⟨rfl, resumes _ relinked (relinked.preserves inv)
            (ordered.link inv member points resolves)⟩

/-- From a retired page the walk comes to an active one. `base` is the page from which it got
to `p` by forwarding only; every back link on the way leads left of it.
-/
theorem finishes_mergeWalk_retired {base : PageId} (inv : Inv N t shape)
    (ordered : Ordered t shape levels) (ranks : Ranks levels t.pages ahead back)
    (ok : RepairOk t repair target)
    (active
      : ∀ cursor held,
          t.Active cursor → Finishes N passes t (.mergeWalk key repair cursor target held))
    (slides : Slides t levels base p) (baseAllocated : base < t.pages) (allocated : p < t.pages)
    (held : List PageId)
    : Finishes N passes t (.mergeWalk key repair p target held) := by
  induction height : back base using Nat.strong_induction_on generalizing base p with
  | _ m again =>
      induction size : ahead p using Nat.strong_induction_on generalizing p with
      | _ n ih =>
          by_cases inUse : t.forward p = none
          · exact active p held ⟨allocated, inUse⟩
          · refine .pass rfl (Nat.le_refl _) (fun upgraded => ?_)
            obtain ⟨t', pc', result, repairs⟩ := mergeWalk_section inv held upgraded ok allocated
            refine ⟨t', pc', result, ?_⟩
            cases repairs with
            | ends member | onward member | compacted member | completed member =>
                exact absurd (inv.active member).2 inUse
            | @back _ _ _ _ _ _ forward next retired goes =>
                refine ⟨rfl, ?_⟩
                have forwardBound := (inv.forwards p forward retired).2
                cases goes with
                | inr earlier =>
                    obtain ⟨-, previous⟩ := earlier
                    have left := ordered.behind base p next baseAllocated slides previous
                    have bound := inv.previous p next allocated previous
                    have less := ranks.back base next bound (.inl (Levels.left_mirror.mpr left))
                    exact again (back next) (height ▸ less) .refl bound bound rfl
                | inl onward =>
                    obtain ⟨rfl, -⟩ := onward
                    have ahead' := ordered.forward p next retired
                    cases ahead' with
                    | inl left =>
                        have less := ranks.ahead p next forwardBound (.inl left)
                        exact ih (ahead next) (size ▸ less) (slides.tail ⟨retired, left⟩)
                          forwardBound rfl
                    | inr above =>
                        -- The walk goes down with a root that collapsed.
                        have below : levels.Above base next := by
                          cases slides.eq_or_left with
                          | inl same => exact same ▸ above
                          | inr left =>
                              obtain ⟨l, k, lower, first, second⟩ := above
                              obtain ⟨n, before⟩ := left
                              obtain rfl := levels.disjoint before.mem.2 first
                              exact ⟨n, k, lower, before.mem.1, second⟩
                        have less := ranks.back base next forwardBound
                          (.inr (Levels.above_mirror.mpr below))
                        exact again (back next) (height ▸ less) .refl forwardBound forwardBound rfl

/-- Every walk comes to an end, by induction on how far the right links reach. -/
theorem finishes_mergeWalk (inv : Inv N t shape) (ordered : Ordered t shape levels)
    (ok : RepairOk t repair target) (resumes : Resumes N passes t shape levels key target)
    : Walks N passes t key repair target := by
  obtain ⟨ahead, back, ranks⟩ := exists_ranks levels t.pages
  induction size : reach ahead t using Nat.strong_induction_on generalizing t with
  | _ n ih =>
      have shorter (t' : Tree K V) (relinked : Relinked t t' shape)
          (ordered' : Ordered t' shape levels) (less : reach ahead t' < reach ahead t)
          : Walks N passes t' key repair target := by
        refine ih (reach ahead t') (size ▸ less) (relinked.preserves inv) ordered'
          (ok.congr relinked.pages relinked.framed.forward) ?_ ?_ rfl
        · exact fun t'' further => resumes t'' (relinked.trans further)
        · rw [relinked.pages]
          exact ranks
      intro cursor held allocated
      refine finishes_mergeWalk_retired inv ordered ranks ok ?_ .refl allocated allocated held
      intro p held active
      exact finishes_mergeWalk_active inv ordered ranks ok resumes shorter active held

/-- A repair begins, with or without its captured predecessor, and comes to an end. -/
theorem finishes_mergeUpgrade (inv : Inv N t shape) (ordered : Ordered t shape levels)
    (ok : RepairOk t repair target) (resumes : Resumes N passes t shape levels key target)
    {held : List PageId}
    : Finishes N passes t (.mergeUpgrade key repair target held) := by
  refine .pass rfl (Nat.le_refl _) (fun upgraded => ?_)
  obtain ⟨t', pc', result, repairs⟩
      : ∃ t' pc',
          t.latchedSection N true upgraded (.mergeUpgrade key repair target held) = .ok (t', pc')
          ∧ Repairs t shape upgraded (.mergeUpgrade key repair target held) t' pc' :=
    ⟨_, _, rfl, mergeUpgrade_ok t shape key repair target held upgraded⟩
  refine ⟨t', pc', result, ?_⟩
  cases repairs with
  | upgraded captured =>
      exact ⟨rfl,
        finishes_mergeWalk inv ordered ok resumes _ held (ok.predecessor _ captured)⟩
  | lost => exact ⟨rfl, finishes_mergeClear inv ordered resumes⟩

end BLink
