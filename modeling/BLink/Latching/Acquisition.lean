import BLink.Model.Latches

/-! How far a thread is with the latches of its section.
Each latch that a section acquires is determined by what the thread has read under the latches
that it holds. Other threads cannot change any of that, so a thread that waits stays on its
way.
-/

namespace BLink

open Library

variable {K V : Type}

/-- The trees agree on everything that these latches protect. -/
structure Agree (t t' : Tree K V) (held : List (Latch × Mode)) : Prop where
  root : ∀ mode, (.slot, mode) ∈ held → t'.root = t.root
  page : ∀ p mode, (.page p, mode) ∈ held → t'.page p = t.page p

theorem Agree.mono {t t' : Tree K V} {held fewer : List (Latch × Mode)}
    (agree : Agree t t' held) (subset : fewer ⊆ held)
    : Agree t t' fewer where
  root mode member := agree.root mode (subset member)
  page p mode member := agree.page p mode (subset member)

variable [TotalOrd K] {N : Nat} {t t' : Tree K V} {held : List (Latch × Mode)} {pc : Pc K V}

-----------------------------------------------------------------------------------------
-- What a thread does next depends on what it has latched
-----------------------------------------------------------------------------------------

omit [TotalOrd K] in
theorem Agree.splitRootPlan (agree : Agree t t' held)
    : t'.splitRootPlan held = t.splitRootPlan held := by
  match held with
  | [] => simp only [Tree.splitRootPlan]
  | [(.slot, mode)] => simp only [Tree.splitRootPlan, agree.root mode List.mem_cons_self]
  | [(.page _, _)] => simp only [Tree.splitRootPlan]
  | _ :: _ :: _ => simp only [Tree.splitRootPlan]

omit [TotalOrd K] in
theorem Agree.shrinkRootPlan (agree : Agree t t' held)
    : t'.shrinkRootPlan held = t.shrinkRootPlan held := by
  match held with
  | [] => simp only [Tree.shrinkRootPlan]
  | [(.slot, mode)] => simp only [Tree.shrinkRootPlan, agree.root mode List.mem_cons_self]
  | [(.page root, mode), (.slot, _)] =>
      simp only [Tree.shrinkRootPlan, agree.page root mode List.mem_cons_self]
  | [(.page _, _)] => simp only [Tree.shrinkRootPlan]
  | [(.slot, _), _] => simp only [Tree.shrinkRootPlan]
  | [(.page _, _), (.page _, _)] => simp only [Tree.shrinkRootPlan]
  | _ :: _ :: _ :: _ => simp only [Tree.shrinkRootPlan]

theorem Agree.insertAttemptPlan (agree : Agree t t' held) (key : Query K) (node : PageId)
    : t'.insertAttemptPlan N key node held = t.insertAttemptPlan N key node held := by
  match held with
  | [] => simp only [Tree.insertAttemptPlan]
  | [(.page node, mode)] =>
      simp only [Tree.insertAttemptPlan, agree.page node mode List.mem_cons_self]
  | [(.slot, _)] => simp only [Tree.insertAttemptPlan]
  | _ :: _ :: _ => simp only [Tree.insertAttemptPlan]

theorem Agree.removeAttemptPlan (agree : Agree t t' held) (key : Query K) (node : PageId)
    : t'.removeAttemptPlan N key node held = t.removeAttemptPlan N key node held := by
  match held with
  | [] => simp only [Tree.removeAttemptPlan]
  | [(.page node, mode)] =>
      simp only [Tree.removeAttemptPlan, agree.page node mode List.mem_cons_self]
  | [first, (.page node, mode)] =>
      have second : (.page node, mode) ∈ [first, (.page node, mode)] :=
        List.mem_cons_of_mem first List.mem_cons_self
      simp only [Tree.removeAttemptPlan, agree.page node mode second]
  | [(.slot, _)] => simp only [Tree.removeAttemptPlan]
  | [_, (.slot, _)] => simp only [Tree.removeAttemptPlan]
  | _ :: _ :: _ :: _ => simp only [Tree.removeAttemptPlan]

omit [TotalOrd K] in
theorem Agree.forward {p : PageId} {mode : Mode} (agree : Agree t t' held)
    (member : (.page p, mode) ∈ held)
    : t'.forward p = t.forward p := by
  simp only [Tree.forward, agree.page p mode member]

omit [TotalOrd K] in
theorem Agree.repairSplitPlan (agree : Agree t t' held) (newRight : PageId)
    (oldSuccessor : Option PageId)
    : t'.repairSplitPlan newRight oldSuccessor held = t.repairSplitPlan newRight oldSuccessor held := by
  match oldSuccessor, held with
  | none, _ => simp only [Tree.repairSplitPlan]
  | some _, [] => simp only [Tree.repairSplitPlan]
  | some _, [(.page newRight, mode)] =>
      simp only [Tree.repairSplitPlan, agree.page newRight mode List.mem_cons_self]
  | some _, [(.page _, _), _] =>
      simp only [Tree.repairSplitPlan, agree.forward List.mem_cons_self]
  | some _, [(.slot, _)] => simp only [Tree.repairSplitPlan]
  | some _, [(.slot, _), _] => simp only [Tree.repairSplitPlan]
  | some _, _ :: _ :: _ :: _ => simp only [Tree.repairSplitPlan]

omit [TotalOrd K] in
theorem Agree.mergeWalkPlan (agree : Agree t t' held) (repair : MergeRepair) (cursor : PageId)
    : t'.mergeWalkPlan repair cursor held = t.mergeWalkPlan repair cursor held := by
  match held with
  | [] => simp only [Tree.mergeWalkPlan]
  | [(.page cursor, mode)] =>
      simp only [Tree.mergeWalkPlan, agree.page cursor mode List.mem_cons_self]
  | [(.page _, .shared), _] =>
      simp only [Tree.mergeWalkPlan, agree.forward List.mem_cons_self]
  | [(.page _, .exclusive), _] => simp only [Tree.mergeWalkPlan]
  | [(.slot, _)] => simp only [Tree.mergeWalkPlan]
  | [(.slot, _), _] => simp only [Tree.mergeWalkPlan]
  | _ :: _ :: _ :: _ => simp only [Tree.mergeWalkPlan]

/-- A thread reads only what it has latched. -/
theorem Agree.plan (agree : Agree t t' held) : t'.plan N pc held = t.plan N pc held := by
  cases pc with
  | splitRootIfFull => exact agree.splitRootPlan
  | shrinkRoot => exact agree.shrinkRootPlan
  | insertAttempt => exact agree.insertAttemptPlan _ _
  | removeAttempt => exact agree.removeAttemptPlan _ _
  | repairSplitBacklink => exact agree.repairSplitPlan _ _
  | mergeWalk => exact agree.mergeWalkPlan _ _
  | _ => rfl

/-- Only the link repairs hop, from a retired page to the page that it forwards to. -/
theorem Tree.plan_hop {target : PageId} (hops : t.plan N pc held = .hop target)
    : ∃ p mode rest,
        held = (.page p, mode) :: rest
        ∧ t.forward p = some target
        ∧ ∀ t' : Tree K V, t'.forward p = some target → t'.plan N pc held = .hop target := by
  cases pc with
  | repairSplitBacklink key value newRight oldSuccessor =>
      simp only [plan] at hops ⊢
      match oldSuccessor, held with
      | some _, [(.page p, mode), other] =>
          simp only [repairSplitPlan] at hops ⊢
          cases forwards : t.forward p with
          | none => rw [forwards] at hops; cases hops
          | some next =>
              rw [forwards, Phase.hop.injEq] at hops
              subst hops
              exact ⟨p, mode, [other], rfl, forwards, fun t' same => by rw [same]⟩
      | none, _ | some _, [] | some _, [(.slot, _)] | some _, [(.slot, _), _]
      | some _, _ :: _ :: _ :: _ => simp [repairSplitPlan] at hops
      | some _, [(.page _, _)] => simp only [repairSplitPlan] at hops; split at hops <;> cases hops
  | mergeWalk key repair =>
      simp only [plan] at hops ⊢
      match held with
      | [(.page p, .shared), other] =>
          simp only [mergeWalkPlan] at hops ⊢
          split at hops
          · rename_i forwards
            cases hops
            exact ⟨p, .shared, [other], rfl, forwards, fun t' same => if_pos same⟩
          · cases hops
      | [(.page cursor, _)] =>
          simp only [mergeWalkPlan] at hops
          repeat' split at hops
          all_goals cases hops
      | [] | [(.slot, _)] | [(.slot, _), _] | [(.page _, .exclusive), _]
      | _ :: _ :: _ :: _ => simp [mergeWalkPlan] at hops
  | splitRootIfFull =>
      simp only [plan, splitRootPlan] at hops
      repeat' split at hops
      all_goals cases hops
  | shrinkRoot =>
      simp only [plan, shrinkRootPlan] at hops
      repeat' split at hops
      all_goals cases hops
  | insertAttempt =>
      simp only [plan, insertAttemptPlan] at hops
      repeat' split at hops
      all_goals cases hops
  | removeAttempt =>
      simp only [plan, removeAttemptPlan] at hops
      repeat' split at hops
      all_goals cases hops
  | loadLen | loadIsEmpty | mergeUpgrade | candidate | done | panicked => cases hops
  | _ => cases held <;> cases hops

/-- What tries latches never hops. -/
theorem Tree.plan_attempt {p target : PageId} {more : List (Latch × Mode)}
    (tries : t.plan N pc held = .attempt p)
    : t.plan N pc more ≠ .hop target := by
  intro hops
  cases pc with
  | insertAttempt =>
      simp only [plan, insertAttemptPlan] at hops
      repeat' split at hops
      all_goals cases hops
  | removeAttempt =>
      simp only [plan, removeAttemptPlan] at hops
      repeat' split at hops
      all_goals cases hops
  | splitRootIfFull =>
      simp only [plan, splitRootPlan] at tries
      repeat' split at tries
      all_goals cases tries
  | shrinkRoot =>
      simp only [plan, shrinkRootPlan] at tries
      repeat' split at tries
      all_goals cases tries
  | repairSplitBacklink =>
      simp only [plan, repairSplitPlan] at tries
      repeat' split at tries
      all_goals cases tries
  | mergeWalk =>
      simp only [plan, mergeWalkPlan] at tries
      repeat' split at tries
      all_goals cases tries
  | loadLen | loadIsEmpty | mergeUpgrade | candidate | done | panicked => cases tries
  | _ => cases held <;> cases tries

-----------------------------------------------------------------------------------------
-- The way through a section
-----------------------------------------------------------------------------------------

/-- A thread in the section at `pc` can hold these latches and do this next, as long as the
tree is what it is.
-/
inductive Acquired (N : Nat) (t : Tree K V) (pc : Pc K V) : List (Latch × Mode) → Phase → Prop
  | enter : Acquired N t pc [] (t.plan N pc [])
  | acquire {held latch mode} (before : Acquired N t pc held (.await latch mode))
    : Acquired N t pc ((latch, mode) :: held) (t.plan N pc ((latch, mode) :: held))
  | latch {held p} (before : Acquired N t pc held (.attempt p))
    : Acquired N t pc ((.page p, .exclusive) :: held)
        (t.plan N pc ((.page p, .exclusive) :: held))
  | miss {held p} (before : Acquired N t pc held (.attempt p))
    : Acquired N t pc held (.act false)
  | hop {held p mode target} (before : Acquired N t pc held (.await (.page p) mode))
    (hops : t.plan N pc ((.page p, mode) :: held) = .hop target)
    : Acquired N t pc held (.await (.page target) .exclusive)

/-- The thread stays on its way as long as nothing changes what it has latched. Retired pages,
which it may have hopped from, forward to the same page for ever.
-/
theorem Acquired.agree {phase : Phase} (acquired : Acquired N t pc held phase)
    (agree : Agree t t' held)
    (retired : ∀ p target, t.forward p = some target → t'.forward p = some target)
    : Acquired N t' pc held phase := by
  induction acquired with
  | enter =>
      rw [← agree.plan]
      exact .enter
  | acquire _ ih =>
      rw [← agree.plan]
      exact .acquire (ih (agree.mono (List.subset_cons_self _ _)))
  | latch _ ih =>
      rw [← agree.plan]
      exact .latch (ih (agree.mono (List.subset_cons_self _ _)))
  | miss _ ih => exact .miss (ih agree)
  | hop _ hops ih =>
      obtain ⟨p, mode, rest, newest, forwards, stays⟩ := Tree.plan_hop hops
      obtain ⟨same, -⟩ := List.cons.inj newest
      cases same
      exact .hop (ih agree) (stays t' (retired _ _ forwards))

/-- A thread tries the latch that its plan names. -/
theorem Acquired.attempt_eq {p : PageId} (acquired : Acquired N t pc held (.attempt p))
    : t.plan N pc held = .attempt p := by
  generalize phase : Phase.attempt p = next at acquired
  cases acquired with
  | enter | acquire | latch => rfl
  | miss | hop => cases phase

/-- A thread hops from the retired page that it has just latched. -/
theorem Acquired.of_hop {newest : Latch × Mode} {target : PageId}
    (acquired : Acquired N t pc (newest :: held) (.hop target))
    : Acquired N t pc held (.await (.page target) .exclusive) := by
  generalize latches : newest :: held = whole at acquired
  generalize phase : Phase.hop target = next at acquired
  cases acquired with
  | enter => cases latches
  | acquire before =>
      cases latches
      obtain ⟨p, mode, rest, newest, -, -⟩ := Tree.plan_hop phase.symm
      obtain ⟨same, -⟩ := List.cons.inj newest
      cases same
      exact .hop before phase.symm
  | latch before => exact absurd phase.symm (Tree.plan_attempt before.attempt_eq)
  | miss => cases phase
  | hop => cases phase

end BLink
