import BLink.Alone.Removals
import BLink.Runs.SiblingChains

/-! Insertions and removals that run alone complete, from every reachable state.
All other threads wait between their sections, with whatever they have left unfinished.
-/

namespace BLink

open Library

variable {ι K V : Type} [TotalOrd K]

-----------------------------------------------------------------------------------------
-- Runs of one thread
-----------------------------------------------------------------------------------------

/-- Thread `θ` passes a section while all latches are free. -/
def Label.IsAlone (θ : ι) : Label ι K V → Prop
  | .pass thread latched _ => thread = θ ∧ latched = true
  | .invoke _ _ | .respond _ _ _ => False

/-- The thread's section begins a structural pass. -/
def startsPass (θ : ι) (transition : Transition (System ι K V) (Label ι K V)) : Bool :=
  match (transition.source.thread θ).status with
  | .running _ pc => pc.startsPass
  | .idle => false

/-- The thread's structural pass returns `Retry`. -/
def returnsRetry (θ : ι) (transition : Transition (System ι K V) (Label ι K V)) : Bool :=
  match (transition.source.thread θ).status, (transition.target.thread θ).status with
  | .running _ pc, .running _ pc' => pc.retries pc'
  | _, _ => false

theorem Pc.retries_done (pc : Pc K V) (response : Response K V)
    : pc.retries (.done response) = false := by
  cases pc <;> rfl

variable [DecidableEq ι] {N : PageCapacity} {s s' : System ι K V} {θ : ι}
  {call : Call K V} {pc : Pc K V} {passes steps : Nat}

/-- The thread runs the call, and completes it within these bounds. -/
structure Runs (N : PageCapacity) (s : System ι K V) (θ : ι) (call : Call K V)
    (passes steps : Nat) (pc : Pc K V)
    : Prop where
  running : (s.thread θ).status = .running call pc
  settled : pc.isSettled = pc.isFinal
  completes : Completes N.size passes steps s.tree pc

/-- A section uses up one step, and one of the passes if it begins a pass. -/
theorem Runs.step (runs : Runs N s θ call passes steps pc) {upgraded : Bool}
    (step : (System.transitions ι K V N).step s (.pass θ true upgraded) s')
    : ∃ later rest pc',
        Runs N s' θ call later rest pc'
        ∧ rest < steps
        ∧ later + pc.startsPass.toNat ≤ passes
        ∧ pc.retries pc' = false := by
  cases step with
  | @pass _ call' at' _ _ running unfinished weak =>
      rw [runs.running] at running
      cases running
      cases runs.completes with
      | settled settled => rw [runs.settled, unfinished] at settled; cases settled
      | @pass _ _ later rest _ _ t' pc' less count _ result keeps completes =>
          have target : s.afterSection θ call (s.tree.latchedSection N.size true upgraded pc)
              = { s.setThread θ ((s.thread θ).resume call (pc' upgraded)) with
                  tree := t' upgraded } := by
            rw [result]
            rfl
          rw [target]
          obtain ⟨pc'', status, settled, goes⟩ := (s.thread θ).resume_running call (pc' upgraded)
          refine ⟨later, rest, pc'', ⟨?_, settled, ?_⟩, less, count, ?_⟩
          · rw [← status]
            exact congrArg Thread.status (System.setThread_same s θ _)
          · cases goes with
            | inl same => exact same ▸ completes upgraded
            | inr done =>
                obtain ⟨-, response, rfl⟩ := done
                exact .settled rfl nofun
          · cases goes with
            | inl same => exact same ▸ keeps upgraded
            | inr done =>
                obtain ⟨-, response, rfl⟩ := done
                exact pc.retries_done response

/-- As long as the call is not done, the thread can pass another section. -/
theorem Runs.progress (runs : Runs N s θ call passes steps pc)
    : (∃ response, (s.thread θ).status = .running call (.done response))
      ∨ ∃ upgraded next,
          (System.transitions ι K V N).step s (.pass θ true upgraded) next := by
  classical
  cases final : pc.isFinal with
  | true =>
      cases pc with
      | done response => exact .inl ⟨response, runs.running⟩
      | panicked panic =>
          cases runs.completes with
          | settled _ fine => exact absurd rfl (fine panic)
          | pass _ _ unsettled => cases unsettled
      | _ => cases final
  | false =>
      refine .inr ⟨decide (∃ page, pc.upgrades s.tree = some page ∧ s.Alive page), _,
        .pass runs.running final (fun page weak => ?_)⟩
      rw [decide_eq_true_iff, weak]
      simp

/-- What a run of one thread has used up so far. -/
theorem Runs.run {trace : List (Transition (System ι K V) (Label ι K V))}
    (runs : Runs N s θ call passes steps pc)
    (run : (System.transitions ι K V N).Run s trace s')
    (alone : ∀ transition ∈ trace, transition.label.IsAlone θ)
    : ∃ later rest pc',
        Runs N s' θ call later rest pc'
        ∧ trace.length + rest ≤ steps
        ∧ later + trace.countP (startsPass θ) ≤ passes
        ∧ ∀ transition ∈ trace, returnsRetry θ transition = false := by
  induction run with
  | nil => exact ⟨passes, steps, pc, runs, by simp, by simp, nofun⟩
  | @snoc trace middle label finish run step ih =>
      obtain ⟨later, rest, pc', runs', length, count, keeps⟩ :=
        ih (fun transition member => alone transition (List.mem_append_left _ member))
      have last := alone ⟨middle, label, finish⟩ (by simp)
      cases label with
      | invoke | respond => exact last.elim
      | pass thread latched upgraded =>
          obtain ⟨rfl, rfl⟩ := last
          obtain ⟨fewer, less, pc'', runs'', shorter, counted, kept⟩ := runs'.step step
          refine ⟨fewer, less, pc'', runs'', ?_, ?_, ?_⟩
          · rw [List.length_append, List.length_singleton]
            omega
          · rw [List.countP_append, List.countP_singleton, startsPass, runs'.running]
            have asNat : (if pc'.startsPass = true then 1 else 0) = pc'.startsPass.toNat := by
              cases pc'.startsPass <;> rfl
            rw [asNat]
            omega
          · intro transition member
            cases List.mem_append.mp member with
            | inl earlier => exact keeps transition earlier
            | inr here =>
                obtain rfl := List.mem_singleton.mp here
                rw [returnsRetry, runs'.running, runs''.running]
                exact kept

/-- The call inserts or removes a record. -/
def Call.Writes : Call K V → Prop
  | .insert _ _ | .remove _ => True
  | _ => False

/-- An insertion or a removal completes from its first section on. -/
theorem Call.Writes.finishes {n : Nat} {t : Tree K V} {shape : Shape} {levels : Levels PageId}
    (writes : call.Writes) (inv : Inv n t shape) (three : 3 ≤ n)
    (ordered : Ordered t shape levels) (cursors : Nat → Cursor K)
    : Finishes n 1 t (call.begin cursors).2 := by
  cases call with
  | insert key value =>
      exact finishes_descent inv ordered (fun _ owns =>
        finishes_tryInsertWithoutSplit inv three owns)
  | remove key =>
      exact finishes_descent inv ordered (fun _ owns =>
        finishes_tryRemoveWithoutRebalance inv three ordered owns)
  | _ => exact writes.elim

/-- In every reachable state, whatever the other threads have left unfinished, an insertion or
a removal that is begun there and runs alone completes after a bounded number of sections: it
makes at most one structural pass, and no pass returns `Retry`.
-/
theorem solo_writer_completes (reached : (System.transitions ι K V N).Reachable s)
    (writes : call.Writes)
    (begins : (System.transitions ι K V N).step s (.invoke θ call) s')
    : ∃ bound, ∀ trace finish,
        (System.transitions ι K V N).Run s' trace finish
        → (∀ transition ∈ trace, transition.label.IsAlone θ)
        → trace.length ≤ bound
          ∧ trace.countP (startsPass θ) ≤ 1
          ∧ (∀ transition ∈ trace, returnsRetry θ transition = false)
          ∧ ((∃ response, (finish.thread θ).status = .running call (.done response))
            ∨ ∃ upgraded next,
                (System.transitions ι K V N).step finish (.pass θ true upgraded) next) := by
  obtain ⟨shape, levels, arranged⟩ := reachable_arranged reached
  cases begins with
  | invoke idle =>
      obtain ⟨steps, completes⟩ :=
        writes.finishes arranged.ok.inv N.three_le arranged.ordered (s.thread θ).cursors
      have runs : Runs N (s.setThread θ {
          status := .running call (call.begin (s.thread θ).cursors).2
          cursors := (call.begin (s.thread θ).cursors).1
        }) θ call 1 steps (call.begin (s.thread θ).cursors).2 := by
        refine ⟨?_, ?_, completes⟩
        · exact congrArg Thread.status (System.setThread_same s θ _)
        · cases call with
          | insert | remove => rfl
          | _ => exact writes.elim
      refine ⟨steps, fun trace finish run alone => ?_⟩
      obtain ⟨later, rest, pc', runs', length, count, keeps⟩ := runs.run run alone
      exact ⟨by omega, by omega, keeps, runs'.progress⟩

/-- The thread still has to repair links after a merge. -/
def System.isMerging (s : System ι K V) (θ : ι) : Bool :=
  match (s.thread θ).status with
  | .running _ pc => pc.merges.isSome
  | .idle => false

/-- A removal runs alone while another one waits to repair the links after its merge. -/
theorem solo_writer_completes_interrupted
    : ∃ (s s' : System (Fin 2) Nat Nat) (bound : Nat),
        (System.transitions (Fin 2) Nat Nat .smallest).Reachable s
        ∧ s.isMerging 1 = true
        ∧ (System.transitions (Fin 2) Nat Nat .smallest).step s (.invoke 0 (.remove (.ofKey 3))) s'
        ∧ ∀ trace finish,
            (System.transitions (Fin 2) Nat Nat .smallest).Run s' trace finish
            → (∀ transition ∈ trace, transition.label.IsAlone 0)
            → trace.length ≤ bound := by
  have plays : ((System.fresh : System (Fin 2) Nat Nat).replay .smallest [0, 1]
      ([1, 2, 3].flatMap (fun key => Move.whole 0 (.insert key key) 3)
        ++ Move.whole 0 (.insert 4 4) 8 ++ Move.whole 0 (.insert 5 5) 9
        ++ Move.whole 0 (.insert 6 6) 9 ++ Move.whole 0 (.remove (.ofKey 6)) 4
        ++ Move.whole 0 (.remove (.ofKey 5)) 4
        ++ .invoke 1 (.remove (.ofKey 4)) :: List.replicate 7 (.pass 1))).map (fun played =>
          (played.2.isMerging 1, played.2.isQuiet [0]))
      = some (true, true) := by
    decide +kernel
  obtain ⟨⟨trace, s⟩, replayed, checks⟩ := Option.map_eq_some_iff.mp plays
  obtain ⟨merging, quiet⟩ := Prod.mk.injEq _ _ _ _ ▸ checks
  have idle : (s.thread 0).status = .idle := by
    have here := List.all_eq_true.mp quiet 0 (List.mem_singleton_self 0)
    split at here
    · assumption
    · cases here
  have reached := System.reachable_of_replay (by decide) replayed
  have writes : (Call.remove (.ofKey 3) : Call Nat Nat).Writes := trivial
  have begins
      : (System.transitions (Fin 2) Nat Nat .smallest).step s (.invoke 0 (.remove (.ofKey 3))) _ :=
    .invoke idle
  obtain ⟨bound, completes⟩ := solo_writer_completes reached writes begins
  exact ⟨s, _, bound, reached, merging, begins,
    fun trace finish run alone => (completes trace finish run alone).1⟩

end BLink
