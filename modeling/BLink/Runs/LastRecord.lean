import BLink.Runs.Executions

/-! When `last_key_value` is linearizable.
The call releases the rightmost leaf after it has found it, and latches it again to read its
last record. The record is the greatest one if no split has put another leaf to the right of
that leaf in between.
-/

namespace BLink

open Library

variable {ι K V : Type} [TotalOrd K]

/-- The section that ends the call reads the last record of some leaf. -/
theorem Effect.last_of_done {N : Nat} {t t' : Tree K V} {shape : Shape} {upgraded : Bool}
    {pc pc' : Pc K V} {response : Response K V} (effect : Effect N t shape latched upgraded pc t' pc')
    (serves : pc.serves = some .lastKeyValue) (done : pc' = .done response)
    : ∃ p ∈ shape.row 0,
        pc = .lastEntry p
        ∧ response = .entry (t.entries p).getLast? := by
  cases effect with
  | read same reads =>
      cases reads with
      | @lastFound p entries member kind =>
          cases done
          exact ⟨p, member, rfl, by rw [Tree.entries, kind]; rfl⟩
      | @firstFound consumer => cases consumer <;> cases serves
      | get | containsKey | loadLen | loadIsEmpty => cases serves
      | _ => cases done
  | write writes => cases writes <;> first | cases serves | cases done
  | insert inserts => cases inserts <;> cases serves
  | remove removes => cases removes <;> cases serves
  | repair repairs => cases repairs <;> cases serves

variable [DecidableEq ι] {N : PageCapacity} {θ : ι} {response : Response K V}
  {start finish : System ι K V} {trace : Trace ι K V}

/-- Whenever the thread latches a leaf to read the last record, no leaf is to its right. -/
def LatchesRightmost (θ : ι) (trace : Trace ι K V) : Prop :=
  ∀ transition ∈ trace,
    ∀ call p,
      (transition.source.thread θ).status = .running call (.lastEntry p)
      → transition.label.owner = θ
      → transition.source.tree.forward p = none
      → (transition.source.tree.page p).right = none

/-- The response is the record with the greatest key at some instant of the execution, or
none when the map was empty at that instant.
-/
def ReturnsLast (response : Response K V) (start : System ι K V) (trace : Trace ι K V)
    : Prop :=
  ∃ instant found,
    Visited start trace instant
    ∧ response = .entry found
    ∧ instant.tree.IsLast found

/-- A call of `last_key_value` that latches a rightmost leaf returns the last record. -/
theorem last_key_value_linearizable_when
    (execution : Execution N θ .lastKeyValue response start trace finish)
    (rightmost : LatchesRightmost θ trace)
    : ReturnsLast response start trace := by
  have along := execution.induct
    (P := fun trace _ pc =>
      LatchesRightmost θ trace → ∀ response, pc = .done response
      → ReturnsLast response start trace) ?_ ?_ ?_
  · exact along rightmost response rfl
  · intro pc running _ response isDone
    obtain ⟨cursors, -, thread⟩ := execution.begins
    rw [thread] at running
    cases running
    cases isDone
  · intro trace s shape pc latched upgraded t' pc' pc'' s' run ok before passed after rightmost
      response isDone
    have status := passed.status_eq ok nofun
    rw [after] at status
    cases status
    obtain ⟨p, member, rfl, rfl⟩ := passed.effect.last_of_done (passed.serves_eq ok) isDone
    have last := rightmost ⟨s, .pass θ latched upgraded, s'⟩ (by simp) .lastKeyValue p
      passed.running rfl (ok.inv.active member).2
    refine ⟨s, _, (Visited.finish run).append, rfl, ?_⟩
    rw [← ok.inv.records_getLast? N.three_le member last]
    exact ok.inv.isLast
  · intro trace s pc label s' run before running same other step rightmost response isDone
    have earlier : LatchesRightmost θ trace :=
      fun transition inTrace => rightmost transition (List.mem_append_left _ inTrace)
    obtain ⟨instant, found, visited, rest⟩ := before earlier response isDone
    exact ⟨instant, found, visited.append, rest⟩

-----------------------------------------------------------------------------------------
-- A split between the two latches of the last leaf
-----------------------------------------------------------------------------------------

/-- The thread's latch of the last leaf finds it rightmost. -/
def System.latchesRightmost (s : System ι K V) (θ : ι) : Bool :=
  match (s.thread θ).status with
  | .running _ (.lastEntry p) => (s.tree.page p).right.isNone
  | _ => true

omit [DecidableEq ι] in
theorem latchesRightmost_of_all
    (all : trace.all (fun transition => transition.source.latchesRightmost θ) = true)
    : LatchesRightmost θ trace := by
  intro transition member call p status _ _
  have found := List.all_eq_true.mp all transition member
  rw [System.latchesRightmost, status] at found
  simpa using found

/-- Nothing happens to the last leaf between the two latches. -/
theorem last_key_value_linearizable_when_quiet
    : ∃ (found : Option (Entry Nat Nat)) (start finish : System (Fin 2) Nat Nat)
        (trace : Trace (Fin 2) Nat Nat),
        Execution .smallest 1 .lastKeyValue (.entry found) start trace finish
        ∧ found.map Entry.record = some (2, 2)
        ∧ ReturnsLast (.entry found) start trace := by
  have performs : (System.perform (K := Nat) (V := Nat) .smallest [(0 : Fin 2), 1]
      (Move.whole 0 (.insert 1 1) 3 ++ Move.whole 0 (.insert 2 2) 3) 1 .lastKeyValue
      [.pass 1, .pass 1, .pass 1]).map (fun performed =>
        (
          performed.2.2.answer 1,
          performed.2.1.all (fun transition => transition.source.latchesRightmost 1)
        ))
      = some (some (.entry (some { key := { id := 1, key := 2 }, value := 2 })), true) := by
    decide +kernel
  obtain ⟨⟨start, trace, finish⟩, performed, checks⟩ := Option.map_eq_some_iff.mp performs
  obtain ⟨answered, rightmost⟩ := Prod.mk.injEq _ _ _ _ ▸ checks
  have execution := execution_of_perform (by decide) performed (by decide) answered
  exact ⟨_, start, finish, trace, execution, rfl,
    last_key_value_linearizable_when execution (latchesRightmost_of_all rightmost)⟩

/-- An insertion splits the last leaf between the two latches: the call returns the record of
key `1`, although a record of key `3` is stored all the time.
-/
theorem last_key_value_not_linearizable
    : ∃ (response : Response Nat Nat) (start finish : System (Fin 2) Nat Nat)
        (trace : Trace (Fin 2) Nat Nat),
        Execution .smallest 1 .lastKeyValue response start trace finish
        ∧ ¬ ReturnsLast response start trace := by
  have performs : (System.perform (K := Nat) (V := Nat) .smallest [(0 : Fin 2), 1]
      ([1, 2, 3].flatMap (fun key => Move.whole 0 (.insert key key) 3)) 1 .lastKeyValue
      ([.pass 1, .pass 1] ++ Move.whole 0 (.insert 4 4) 8 ++ [.pass 1])).map (fun performed =>
        (
          performed.2.2.answer 1,
          performed.1.tree.storesKey 3
            && performed.2.1.all (fun transition => transition.target.tree.storesKey 3)
        ))
      = some (some (.entry (some { key := { id := 0, key := 1 }, value := 1 })), true) := by
    decide +kernel
  obtain ⟨⟨start, trace, finish⟩, performed, checks⟩ := Option.map_eq_some_iff.mp performs
  obtain ⟨answered, stored⟩ := Prod.mk.injEq _ _ _ _ ▸ checks
  have execution := execution_of_perform (by decide) performed (by decide) answered
  refine ⟨_, start, finish, trace, execution, ?_⟩
  rintro ⟨instant, found, visited, isEntry, last⟩
  cases isEntry
  rw [Bool.and_eq_true, List.all_eq_true] at stored
  have stores : instant.tree.storesKey 3 = true := by
    rcases visited with rfl | ⟨transition, member, rfl⟩
    · exact stored.1
    · exact stored.2 transition member
  obtain ⟨other, isStored, equal⟩ := Tree.exists_of_storesKey stores
  have smaller := last.2 other isStored
  rw [compare_congr_left equal] at smaller
  cases smaller

end BLink
