import BLink.Library.Linearizability
import BLink.Runs.Invariant
import BLink.Runs.Schedule

/-! Linearizability of the key operations.
Every lookup, insertion, removal and mutable access takes effect in the one section that
looks at its key's leaf for the last time, whatever other threads do around it.
-/

namespace BLink

open Library

variable {ι K V : Type} [TotalOrd K]

/-- The operations on one key. -/
def Call.isKeyed : Call K V → Bool
  | .get _ | .containsKey _ | .getMut _ _ | .insert _ _ | .remove _ => true
  | .firstKeyValue | .lastKeyValue | .len | .isEmpty | .next _ => false

/-- The invocation or response of a key operation. -/
def keyedEvent : Label ι K V → Option (Event ι (Call K V) (Response K V))
  | .invoke θ call => if call.isKeyed then some (.invoke θ call) else none
  | .pass _ _ _ => none
  | .respond θ call response => if call.isKeyed then some (.respond θ response) else none

/-- What a thread's key operation has come to. -/
def Status.keyed : Status K V → CallStatus (Call K V) (Response K V)
  | .idle => .idle
  | .running call pc =>
      if call.isKeyed then
        match pc.result with
        | none => .pending call
        | some response => .decided call response
      else
        .idle

/-- What the key operations of all threads have come to. -/
def System.keyed (s : System ι K V) (θ : ι) : CallStatus (Call K V) (Response K V) :=
  (s.thread θ).status.keyed

/-- The calls that are not key operations leave the map as it is. -/
theorem Applies.same_of_not_keyed {call : Call K V} {map map' : SortedMap K V}
    {response : Response K V} (applies : Applies call map response map')
    (other : call.isKeyed = false)
    : map' = map := by
  cases call with
  | get | containsKey | getMut | insert | remove => cases other
  | firstKeyValue | lastKeyValue | len | isEmpty => exact applies.1
  | next cursor => exact applies.elim

/-- A key operation begins without a result. -/
theorem Call.begin_result {call : Call K V} (keyed : call.isKeyed = true)
    (cursors : Nat → Cursor K)
    : (call.begin cursors).2.result = none := by
  cases call with
  | get | containsKey | getMut | insert | remove => rfl
  | firstKeyValue | lastKeyValue | len | isEmpty | next => cases keyed

variable [DecidableEq ι] {N : PageCapacity} {s s' : System ι K V} {shape : Shape} {θ : ι}

theorem System.keyed_setThread (s : System ι K V) (θ : ι) (thread : Thread K V)
    : (s.setThread θ thread).keyed = Function.update s.keyed θ thread.status.keyed := by
  funext other
  by_cases here : other = θ
  · subst other
    rw [System.keyed, System.setThread_same, Function.update_self]
  · rw [System.keyed, System.setThread_other s thread here, Function.update_of_ne here]
    rfl

/-- A cursor's call never counts as a key operation. -/
theorem Thread.resume_keyed (thread : Thread K V) {call : Call K V} (pc : Pc K V)
    (serves : ∀ served ∈ pc.serves, served = call)
    : (thread.resume call pc).status.keyed = (Status.running call pc).keyed := by
  cases pc with
  | candidate cursor found =>
      obtain rfl := serves _ rfl
      rfl
  | _ => rfl

/-- A section of a key operation either is the operation's point or changes nothing. -/
theorem Outcome.pointStep {call : Call K V} {pc pc' : Pc K V} {map map' : SortedMap K V}
    (outcome : Outcome map pc map' pc') (running : (s.thread θ).status = .running call pc)
    (serves : ∀ served ∈ pc.serves, served = call)
    : PointStep Applies s.keyed map none
        (Function.update s.keyed θ (Status.running call pc').keyed) map' := by
  have before : s.keyed θ = (Status.running call pc).keyed := by rw [System.keyed, running]
  have quiet (same : (Status.running call pc').keyed = (Status.running call pc).keyed)
      : PointStep Applies s.keyed map none
          (Function.update s.keyed θ (Status.running call pc').keyed) map := by
    rw [same, ← before, Function.update_eq_self]
    exact .internal
  cases outcome with
  | silent same => exact quiet (by rw [Status.keyed, Status.keyed, same])
  | @point served response _ _ isServed undecided decided rest applies =>
      obtain rfl := serves served isServed
      cases keyed : served.isKeyed with
      | false =>
          obtain rfl := applies.same_of_not_keyed keyed
          exact quiet (by simp [Status.keyed, keyed])
      | true =>
          have after : (Status.running served pc').keyed = .decided served response := by
            simp [Status.keyed, keyed, decided]
          rw [after]
          exact .point (by simp [before, Status.keyed, keyed, undecided]) applies
  | last at' after =>
      subst at'
      obtain rfl := serves _ rfl
      exact quiet rfl

/-- Every step is a step of the abstract map for the key operations. -/
theorem pointStep_of_step {label : Label ι K V} {map : SortedMap K V}
    (ok : SystemOk N s shape) (rep : Represents s.tree shape map)
    (step : (System.transitions ι K V N).step s label s')
    : ∃ map' shape',
        SystemOk N s' shape'
        ∧ Represents s'.tree shape' map'
        ∧ PointStep Applies s.keyed map (keyedEvent label) s'.keyed map' := by
  cases label with
  | invoke θ call =>
      cases step with
      | invoke idle =>
          refine ⟨map, shape, ok.invoke idle call, rep, ?_⟩
          have free : s.keyed θ = .idle := by rw [System.keyed, idle]; rfl
          rw [System.keyed_setThread]
          cases keyed : call.isKeyed with
          | false =>
              have same : (Status.running call (call.begin (s.thread θ).cursors).2).keyed
                  = s.keyed θ := by simp [Status.keyed, keyed, free]
              rw [same, Function.update_eq_self]
              simpa [keyedEvent, keyed] using .internal
          | true =>
              have waits : (Status.running call (call.begin (s.thread θ).cursors).2).keyed
                  = .pending call := by
                simp [Status.keyed, keyed, Call.begin_result keyed]
              rw [waits]
              simpa [keyedEvent, keyed] using .invoke free
  | respond θ call response =>
      cases step with
      | respond done =>
          refine ⟨map, shape, ok.respond done, rep, ?_⟩
          have before : s.keyed θ = (Status.running call (.done response)).keyed := by
            rw [System.keyed, done]
          rw [System.keyed_setThread]
          cases keyed : call.isKeyed with
          | false =>
              have same : (Status.idle : Status K V).keyed = s.keyed θ := by
                simp [before, Status.keyed, keyed]
              rw [same, Function.update_eq_self]
              simpa [keyedEvent, keyed] using .internal
          | true =>
              have decided : s.keyed θ = .decided call response := by
                simp [before, Status.keyed, keyed, Pc.result]
              simpa [keyedEvent, keyed] using .respond decided
  | pass θ latched upgraded =>
      obtain ⟨call, pc, t', pc', passed⟩ := ok.section_step step
      obtain ⟨shape', advance, outcomes⟩ := passed.preserved ok
      obtain ⟨map', rep', outcome⟩ := outcomes map rep
      have serves := (ok.thread θ).serves call pc passed.running
      have point := outcome.pointStep passed.running serves
      refine ⟨map', shape', passed.systemOk ok advance, ?_, ?_⟩
      · rw [passed.target]
        exact rep'
      · have kept : s'.keyed = (s.setThread θ ((s.thread θ).resume call pc')).keyed := by
          rw [passed.target]
          rfl
        rw [kept, System.keyed_setThread, Thread.resume_keyed _ pc' ?_]
        · exact point
        · intro served isServed
          exact serves served (outcome.serves_of_mem served isServed)

/-- The history of the key operations of every run is linearizable: they can be put in one
order that respects their real-time order, and in which an ordered map gives every completed
operation the result it had.
-/
theorem keyed_calls_linearizable
    {trace : List (Transition (System ι K V) (Label ι K V))}
    (initial : (System.transitions ι K V N).init s)
    (run : (System.transitions ι K V N).Run s trace s')
    : Linearizable Applies SortedMap.empty (historyOf keyedEvent trace) := by
  refine linearizable_of_points
    (fun s map => ∃ shape, SystemOk N s shape ∧ Represents s.tree shape map) System.keyed run
    ?_ ?_ ?_
  · intro θ
    rw [System.keyed, initial.idle θ]
    rfl
  · exact ⟨Shape.single, initial.ok, initial.represents⟩
  · rintro earlier s label s' map - step ⟨shape, ok, rep⟩
    obtain ⟨map', shape', ok', rep', point⟩ := pointStep_of_step ok rep step
    exact ⟨map', ⟨shape', ok', rep'⟩, point⟩

/-- A lookup of one thread that overlaps an insertion of another. -/
theorem keyed_calls_linearizable_overlap
    : ∃ trace s,
        (System.fresh : System (Fin 2) Nat Nat).replay .smallest [0, 1]
            [.invoke 0 (.get (.ofKey 1)), .invoke 1 (.insert 1 7), .pass 0, .pass 1, .pass 1,
              .pass 1, .pass 0, .respond 1, .respond 0]
          = some (trace, s)
        ∧ Linearizable Applies SortedMap.empty (historyOf keyedEvent trace) := by
  have plays : ((System.fresh : System (Fin 2) Nat Nat).replay .smallest [0, 1]
      [.invoke 0 (.get (.ofKey 1)), .invoke 1 (.insert 1 7), .pass 0, .pass 1, .pass 1,
        .pass 1, .pass 0, .respond 1, .respond 0]).isSome = true := by decide +kernel
  obtain ⟨⟨trace, s⟩, replayed⟩ := Option.isSome_iff_exists.mp plays
  exact ⟨trace, s, replayed,
    keyed_calls_linearizable System.fresh_initial (System.run_of_replay (by decide) replayed)⟩

end BLink
