import BLink.Latching.Acquisition

/-! Every state that a thread can be in while it acquires the latches of a section.
Everything about which latches are held together is derived from this list.
-/

namespace BLink

open Library

variable {K V : Type} [TotalOrd K]

/-- The latch of a section that needs only one. -/
def Pc.soleLatch : Pc K V → Option (Latch × Mode)
  | .leafRoot _ | .leftmostRoot _ | .rightmostRoot | .insertRoot _ _ | .removeRoot _ =>
      some (.slot, .shared)
  | .leafRead _ node | .seekRight _ _ _ node | .leftmostLeaf _ node | .firstEntry _ node
  | .rightmostLeaf node | .lastEntry node =>
      some (.page node, .shared)
  | .leafWrite _ node => some (.page node, .exclusive)
  | .mergeClear _ repair _ _ => some (.page repair.survivor, .exclusive)
  | _ => none

/-- The first page forwards to the second one. -/
def Tree.Forwards (t : Tree K V) (p q : PageId) : Prop := t.forward p = some q

/-- The walk along the siblings waits, at the link to `next`, for `next` itself or for the
survivor.
-/
inductive WalkWaits (t : Tree K V) (repair : MergeRepair) (next : PageId)
    : PageId → Mode → Prop
  | next (retired : next ≠ repair.retired) (survivor : next ≠ repair.survivor)
    : WalkWaits t repair next next .shared
  | linked (linked : next = repair.retired ∨ next = repair.survivor)
    : WalkWaits t repair next repair.survivor .exclusive
  | hopped (forwards : t.forward next = some repair.survivor)
    : WalkWaits t repair next repair.survivor .exclusive

/-- The latches that a thread can hold in the section at a program counter, the newest first,
and what it then does next.
-/
inductive Stage (N : Nat) (t : Tree K V) : Pc K V → List (Latch × Mode) → Phase → Prop
  | first {pc} : Stage N t pc [] (t.plan N pc [])
  | sole {pc latch mode} (sole : pc.soleLatch = some (latch, mode))
    : Stage N t pc [(latch, mode)] (.act true)
  | splitSlot {key value}
    : Stage N t (.splitRootIfFull key value) [(.slot, .exclusive)]
        (.await (.page t.root) .exclusive)
  | splitRoot {key value}
    : Stage N t (.splitRootIfFull key value)
        [(.page t.root, .exclusive), (.slot, .exclusive)] (.act true)
  | shrinkSlot {key result}
    : Stage N t (.shrinkRoot key result) [(.slot, .exclusive)] (.await (.page t.root) .exclusive)
  | shrinkStops {key result}
    (stops
      : (∀ children, (t.page t.root).kind = .internal [] children → children = [])
        ∧ t.forward t.root = none)
    : Stage N t (.shrinkRoot key result)
        [(.page t.root, .exclusive), (.slot, .exclusive)] (.act true)
  | shrinkChild {key result child}
    (superfluous
      : (∃ rest, (t.page t.root).kind = .internal [] (child :: rest))
        ∨ t.forward t.root = some child)
    : Stage N t (.shrinkRoot key result)
        [(.page t.root, .exclusive), (.slot, .exclusive)] (.await (.page child) .exclusive)
  | shrinks {key result child}
    (superfluous
      : (∃ rest, (t.page t.root).kind = .internal [] (child :: rest))
        ∨ t.forward t.root = some child)
    : Stage N t (.shrinkRoot key result)
        [(.page child, .exclusive), (.page t.root, .exclusive), (.slot, .exclusive)] (.act true)
  | insertPage {key value node} (here : (t.page node).childToLatch N (.ofKey key) = none)
    : Stage N t (.insertAttempt key value node) [(.page node, .exclusive)] (.act true)
  | insertTries {key value node child}
    (tries : (t.page node).childToLatch N (.ofKey key) = some child)
    : Stage N t (.insertAttempt key value node) [(.page node, .exclusive)] (.attempt child)
  | insertMisses {key value node child}
    (tries : (t.page node).childToLatch N (.ofKey key) = some child)
    : Stage N t (.insertAttempt key value node) [(.page node, .exclusive)] (.act false)
  | insertChild {key value node child}
    (tries : (t.page node).childToLatch N (.ofKey key) = some child)
    : Stage N t (.insertAttempt key value node)
        [(.page child, .exclusive), (.page node, .exclusive)] (.act true)
  | removePage {key node} (here : (t.page node).siblingsToLatch N key = none)
    : Stage N t (.removeAttempt key node) [(.page node, .exclusive)] (.act true)
  | removeTries {key node first second}
    (tries : (t.page node).siblingsToLatch N key = some (first, second))
    : Stage N t (.removeAttempt key node) [(.page node, .exclusive)] (.attempt first)
  | removeTriesSecond {key node first second}
    (tries : (t.page node).siblingsToLatch N key = some (first, second))
    : Stage N t (.removeAttempt key node)
        [(.page first, .exclusive), (.page node, .exclusive)] (.attempt second)
  | removeMisses {key node}
    : Stage N t (.removeAttempt key node) [(.page node, .exclusive)] (.act false)
  | removeMissesSecond {key node first second}
    (tries : (t.page node).siblingsToLatch N key = some (first, second))
    : Stage N t (.removeAttempt key node)
        [(.page first, .exclusive), (.page node, .exclusive)] (.act false)
  | removeSiblings {key node first second}
    (tries : (t.page node).siblingsToLatch N key = some (first, second))
    : Stage N t (.removeAttempt key node)
        [(.page second, .exclusive), (.page first, .exclusive), (.page node, .exclusive)]
        (.act true)
  | repairStale {key value newRight successor target held}
    (stale
      : t.forward newRight = none → (t.page newRight).right ≠ some successor)
    : Stage N t (.repairSplitBacklink key value newRight (some successor) target held)
        [(.page newRight, .exclusive)] (.act true)
  | repairWaits {key value newRight successor target held q}
    (active : t.forward newRight = none) (points : (t.page newRight).right = some successor)
    (path : Relation.ReflTransGen t.Forwards successor q)
    : Stage N t (.repairSplitBacklink key value newRight (some successor) target held)
        [(.page newRight, .exclusive)] (.await (.page q) .exclusive)
  | repairHops {key value newRight successor target held q next}
    (active : t.forward newRight = none) (points : (t.page newRight).right = some successor)
    (path : Relation.ReflTransGen t.Forwards successor q) (forwards : t.forward q = some next)
    : Stage N t (.repairSplitBacklink key value newRight (some successor) target held)
        [(.page q, .exclusive), (.page newRight, .exclusive)] (.hop next)
  | repairs {key value newRight successor target held q}
    (active : t.forward newRight = none) (points : (t.page newRight).right = some successor)
    (path : Relation.ReflTransGen t.Forwards successor q) (final : t.forward q = none)
    : Stage N t (.repairSplitBacklink key value newRight (some successor) target held)
        [(.page q, .exclusive), (.page newRight, .exclusive)] (.act true)
  | walkStops {key repair cursor target held}
    (stops : t.forward cursor = none → (t.page cursor).right = none)
    : Stage N t (.mergeWalk key repair cursor target held) [(.page cursor, .exclusive)]
        (.act true)
  | walkWaits {key repair cursor target held next q mode}
    (active : t.forward cursor = none) (points : (t.page cursor).right = some next)
    (waits : WalkWaits t repair next q mode)
    : Stage N t (.mergeWalk key repair cursor target held) [(.page cursor, .exclusive)]
        (.await (.page q) mode)
  | walkHops {key repair cursor target held next}
    (active : t.forward cursor = none) (points : (t.page cursor).right = some next)
    (forwards : t.forward next = some repair.survivor)
    : Stage N t (.mergeWalk key repair cursor target held)
        [(.page next, .shared), (.page cursor, .exclusive)] (.hop repair.survivor)
  | walkNext {key repair cursor target held next}
    (active : t.forward cursor = none) (points : (t.page cursor).right = some next)
    (other : t.forward next ≠ some repair.survivor) (retired : next ≠ repair.retired)
    (survivor : next ≠ repair.survivor)
    : Stage N t (.mergeWalk key repair cursor target held)
        [(.page next, .shared), (.page cursor, .exclusive)] (.act true)
  | walkSurvivor {key repair cursor target held next}
    (active : t.forward cursor = none) (points : (t.page cursor).right = some next)
    (waits : WalkWaits t repair next repair.survivor .exclusive)
    : Stage N t (.mergeWalk key repair cursor target held)
        [(.page repair.survivor, .exclusive), (.page cursor, .exclusive)] (.act true)

variable {N : Nat} {t : Tree K V} {held : List (Latch × Mode)} {pc : Pc K V} {phase : Phase}

theorem Pc.plan_sole {latch : Latch} {mode : Mode} (sole : pc.soleLatch = some (latch, mode))
    : t.plan N pc = Phase.single latch mode := by
  cases pc <;> cases sole <;> rfl

omit [TotalOrd K] in
theorem Tree.isRedirect_iff {p : PageId}
    : (t.page p).isRedirect = true ↔ t.forward p ≠ none := by
  rw [Node.isRedirect, Tree.forward]
  cases (t.page p).kind <;> simp

/-- The pages that an attempt tries to latch are children. -/
theorem Node.childToLatch_internal {key : Query K} {guard : Node K V} {child : PageId}
    (tries : guard.childToLatch N key = some child)
    : ∃ keys children, guard.kind = .internal keys children ∧ child ∈ children := by
  rw [childToLatch] at tries
  split at tries
  · rename_i keys children _ kind
    split_ifs at tries
    split at tries
    · exact ⟨keys, children, kind, List.mem_of_getElem? tries⟩
    · cases tries
  · cases tries

theorem Node.siblingsToLatch_internal {key : Query K} {guard : Node K V}
    {first second : PageId} (tries : guard.siblingsToLatch N key = some (first, second))
    : ∃ keys children,
        guard.kind = .internal keys children ∧ first ∈ children ∧ second ∈ children := by
  rw [siblingsToLatch] at tries
  split at tries
  · rename_i keys children _ kind
    split_ifs at tries
    split at tries
    · split at tries
      · rename_i firstSlot secondSlot
        cases tries
        exact ⟨keys, children, kind, List.mem_of_getElem? firstSlot,
          List.mem_of_getElem? secondSlot⟩
      · cases tries
    · cases tries
  · cases tries

/-- With its first latch a thread reads what it needs next. -/
theorem Stage.acquire_first {latch : Latch} {mode : Mode}
    (waits : t.plan N pc [] = .await latch mode)
    : Stage N t pc [(latch, mode)] (t.plan N pc [(latch, mode)]) := by
  cases pc with
  | splitRootIfFull => cases waits; exact .splitSlot
  | shrinkRoot => cases waits; exact .shrinkSlot
  | insertAttempt key value node =>
      cases waits
      simp only [Tree.plan, Tree.insertAttemptPlan]
      cases tries : (t.page node).childToLatch N (.ofKey key) with
      | none => exact .insertPage tries
      | some child => exact .insertTries tries
  | removeAttempt key node =>
      cases waits
      simp only [Tree.plan, Tree.removeAttemptPlan]
      cases tries : (t.page node).siblingsToLatch N key with
      | none => exact .removePage tries
      | some siblings => exact .removeTries tries
  | repairSplitBacklink key value newRight oldSuccessor =>
      cases oldSuccessor with
      | none => cases waits
      | some successor =>
          cases waits
          simp only [Tree.plan, Tree.repairSplitPlan, Tree.isRedirect_iff]
          split_ifs with stale
          · refine .repairStale (fun active => ?_)
            exact stale.resolve_left (fun retired => retired active)
          · obtain ⟨active, points⟩ := not_or.mp stale
            exact .repairWaits (not_not.mp active) (not_not.mp points) .refl
  | mergeWalk key repair cursor =>
      cases waits
      simp only [Tree.plan, Tree.mergeWalkPlan, Tree.isRedirect_iff]
      split_ifs with retired
      · exact .walkStops (fun active => absurd active retired)
      · cases points : (t.page cursor).right with
        | none => exact .walkStops (fun _ => points)
        | some next =>
            simp only
            split_ifs with linked
            · exact .walkWaits (not_not.mp retired) points (.linked linked)
            · obtain ⟨other, notSurvivor⟩ := not_or.mp linked
              exact .walkWaits (not_not.mp retired) points (.next other notSurvivor)
  | loadLen | loadIsEmpty | mergeUpgrade | candidate | done | panicked => cases waits
  | _ => cases waits; exact .sole rfl

theorem Stage.acquire {latch : Latch} {mode : Mode}
    (stage : Stage N t pc held (.await latch mode))
    : Stage N t pc ((latch, mode) :: held) (t.plan N pc ((latch, mode) :: held)) := by
  generalize waits : Phase.await latch mode = phase at stage
  cases stage with
  | first => exact .acquire_first waits.symm
  | splitSlot => cases waits; exact .splitRoot
  | shrinkSlot =>
      cases waits
      simp only [Tree.plan, Tree.shrinkRootPlan]
      cases kind : (t.page t.root).kind with
      | internal keys children =>
          cases keys with
          | nil =>
              cases children with
              | cons child rest => exact .shrinkChild (.inl ⟨rest, kind⟩)
              | nil =>
                  refine .shrinkStops ⟨?_, by rw [Tree.forward, kind]⟩
                  intro _ same
                  cases kind.symm.trans same
                  rfl
          | cons =>
              refine .shrinkStops ⟨?_, by rw [Tree.forward, kind]⟩
              intro _ same
              cases kind.symm.trans same
      | leaf entries =>
          refine .shrinkStops ⟨?_, by rw [Tree.forward, kind]⟩
          intro _ same
          cases kind.symm.trans same
      | redirect target => exact .shrinkChild (.inr (by rw [Tree.forward, kind]))
  | shrinkChild superfluous => cases waits; exact .shrinks superfluous
  | @repairWaits _ _ _ _ _ _ q active points path =>
      cases waits
      simp only [Tree.plan, Tree.repairSplitPlan]
      cases forwards : t.forward q with
      | none => exact .repairs active points path forwards
      | some next => exact .repairHops active points path forwards
  | walkWaits active points goes =>
      cases waits
      cases goes with
      | next retired survivor =>
          simp only [Tree.plan, Tree.mergeWalkPlan]
          split_ifs with forwards
          · exact .walkHops active points forwards
          · exact .walkNext active points forwards retired survivor
      | linked linked => exact .walkSurvivor active points (.linked linked)
      | hopped forwards => exact .walkSurvivor active points (.hopped forwards)
  | _ => cases waits

/-- No section begins with an attempt. -/
theorem Tree.plan_nil_ne_attempt {p : PageId} : t.plan N pc [] ≠ .attempt p := by
  intro tries
  cases pc with
  | repairSplitBacklink _ _ _ oldSuccessor => cases oldSuccessor <;> cases tries
  | _ => cases tries

theorem Stage.latch {p : PageId} (stage : Stage N t pc held (.attempt p))
    : Stage N t pc ((.page p, .exclusive) :: held)
        (t.plan N pc ((.page p, .exclusive) :: held)) := by
  generalize tried : Phase.attempt p = phase at stage
  cases stage with
  | first => exact absurd tried.symm Tree.plan_nil_ne_attempt
  | insertTries tries => cases tried; exact .insertChild tries
  | removeTries tries =>
      cases tried
      simp only [Tree.plan, Tree.removeAttemptPlan, tries]
      exact .removeTriesSecond tries
  | removeTriesSecond tries => cases tried; exact .removeSiblings tries
  | _ => cases tried

theorem Stage.miss {p : PageId} (stage : Stage N t pc held (.attempt p))
    : Stage N t pc held (.act false) := by
  generalize tried : Phase.attempt p = phase at stage
  cases stage with
  | first => exact absurd tried.symm Tree.plan_nil_ne_attempt
  | insertTries tries => exact .insertMisses tries
  | removeTries => exact .removeMisses
  | removeTriesSecond tries => exact .removeMissesSecond tries
  | _ => cases tried

/-- A thread that hops waits for the next page, with what it holds besides the retired one. -/
theorem Stage.hop {newest : Latch × Mode} {target : PageId}
    (stage : Stage N t pc (newest :: held) (.hop target))
    : Stage N t pc held (.await (.page target) .exclusive) := by
  generalize latches : newest :: held = whole at stage
  generalize hops : Phase.hop target = phase at stage
  cases stage with
  | first => cases latches
  | repairHops active points path forwards =>
      cases latches
      cases hops
      exact .repairWaits active points (path.tail forwards)
  | walkHops active points forwards =>
      cases latches
      cases hops
      exact .walkWaits active points (.hopped forwards)
  | _ => cases hops

/-- The list is complete: by induction on how the latches were acquired. -/
theorem Acquired.stage (acquired : Acquired N t pc held phase) : Stage N t pc held phase := by
  induction acquired with
  | enter => exact .first
  | acquire _ ih => exact ih.acquire
  | latch _ ih => exact ih.latch
  | miss _ ih => exact ih.miss
  | hop _ hops ih =>
      have hopping := ih.acquire
      rw [hops] at hopping
      exact hopping.hop

end BLink
