import BLink.Runs.Executions

/-! `first_key_value` is linearizable.
The descent to the first leaf checks no fences: every page on it is the leftmost page of its
level or forwards to one, whatever happens to the tree meanwhile.
-/

namespace BLink

open Library

variable {ι K V : Type} [TotalOrd K]

/-- The section that ends the call reads the first record of the map. -/
theorem Effect.first_of_done {N : Nat} {t t' : Tree K V} {shape : Shape} {upgraded : Bool}
    {pc pc' : Pc K V} {response : Response K V} (effect : Effect N t shape latched upgraded pc t' pc')
    (inv : Inv N t shape) (three : 3 ≤ N) (ok : PcOk t shape pc)
    (serves : pc.serves = some .firstKeyValue) (done : pc' = .done response)
    : ∃ found, response = .entry found ∧ t.IsFirst found := by
  cases effect with
  | read same reads =>
      cases reads with
      | @firstFound consumer p entries member kind stop =>
          cases consumer with
          | some cursor => cases serves
          | none =>
              cases done
              obtain ⟨s, inRow, low, resolves⟩ := ok
              obtain rfl := resolves.eq_of_settled (inv.active member).2
              have first := inv.records_head? three member low
              rw [Tree.entries, kind, NodeKind.entries] at first
              exact ⟨_, rfl, first ▸ inv.isFirst⟩
      | get | containsKey | loadLen | loadIsEmpty | lastFound => cases serves
      | _ => cases done
  | write writes =>
      cases writes <;> first | cases serves | cases done
  | insert inserts => cases inserts <;> cases serves
  | remove removes => cases removes <;> cases serves
  | repair repairs => cases repairs <;> cases serves

variable [DecidableEq ι] {N : PageCapacity} {θ : ι} {response : Response K V}
  {start finish : System ι K V} {trace : Trace ι K V}

/-- A call of `first_key_value` returns the record that had the least key at some instant
between its invocation and its return, or none when the map was empty at that instant.
-/
theorem first_key_value_linearizable
    (execution : Execution N θ .firstKeyValue response start trace finish)
    : ∃ instant found,
        Visited start trace instant
        ∧ response = .entry found
        ∧ instant.tree.IsFirst found := by
  have along := execution.induct
    (P := fun trace _ pc => ∀ response, pc = .done response →
      ∃ instant found,
        Visited start trace instant
        ∧ response = .entry found
        ∧ instant.tree.IsFirst found) ?_ ?_ ?_
  · exact along response rfl
  · intro pc running response isDone
    obtain ⟨cursors, -, thread⟩ := execution.begins
    rw [thread] at running
    cases running
    cases isDone
  · intro trace s shape pc latched upgraded t' pc' pc'' s' run ok before passed after response isDone
    have status := passed.status_eq ok nofun
    rw [after] at status
    cases status
    obtain ⟨found, isEntry, first⟩ :=
      passed.effect.first_of_done ok.inv N.three_le ((ok.thread θ).pc _ _ passed.running)
        (passed.serves_eq ok) isDone
    exact ⟨s, found, (Visited.finish run).append, isEntry, first⟩
  · intro trace s pc label s' run before running same other step response isDone
    obtain ⟨instant, found, visited, rest⟩ := before response isDone
    exact ⟨instant, found, visited.append, rest⟩

/-- One thread removes the first record before another one reads it. -/
theorem first_key_value_linearizable_removed
    : ∃ (found : Option (Entry Nat Nat)) (start finish : System (Fin 2) Nat Nat)
        (trace : Trace (Fin 2) Nat Nat),
        Execution .smallest 1 .firstKeyValue (.entry found) start trace finish
        ∧ found.map Entry.record = some (2, 2)
        ∧ ∃ instant least,
            Visited start trace instant
            ∧ Response.entry found = .entry least
            ∧ instant.tree.IsFirst least := by
  have performs : (System.perform (K := Nat) (V := Nat) .smallest [(0 : Fin 2), 1]
      (Move.whole 0 (.insert 1 1) 3 ++ Move.whole 0 (.insert 2 2) 3) 1 .firstKeyValue
      ([.pass 1, .pass 1] ++ Move.whole 0 (.remove (.ofKey 1)) 3 ++ [.pass 1])).map
        (fun performed => performed.2.2.answer 1)
      = some (some (.entry (some { key := { id := 1, key := 2 }, value := 2 }))) := by
    decide +kernel
  obtain ⟨⟨start, trace, finish⟩, performed, answered⟩ := Option.map_eq_some_iff.mp performs
  have execution := execution_of_perform (by decide) performed (by decide) answered
  exact ⟨_, start, finish, trace, execution, rfl, first_key_value_linearizable execution⟩

end BLink
