import BLink.Runs.Invariant
import BLink.Runs.Schedule

/-! No failure point is reachable.
Capacity and bounds checks, expected siblings and children, unreachable branches and debug
assertions are all error results of the model; a thread that meets one has panicked.
-/

namespace BLink

open Library

variable {ι K V : Type} [TotalOrd K] [DecidableEq ι] {N : PageCapacity} {s : System ι K V}

/-- No thread of a reachable state has panicked. -/
theorem no_failure_reachable (reached : (System.transitions ι K V N).Reachable s) (θ : ι)
    (call : Call K V) (panic : Panic)
    : (s.thread θ).status ≠ .running call (.panicked panic) := by
  obtain ⟨shape, ok⟩ := reachable_ok reached
  exact fun failed => (ok.thread θ).pc call _ failed

/-- An insertion has split leaf 0, and a removal has merged leaf 3 into leaf 4. The links of leaf 2
are still to be repaired: its back link to the new leaf 5, and its right link, which leads to the
retired leaf.
-/
theorem no_failure_reachable_repairing
    : ∃ s : System (Fin 2) Nat Nat,
        ((s.tree.page 5).right = some 2 ∧ (s.tree.page 2).previous = some 0)
        ∧ ((s.tree.page 2).right = some 3 ∧ s.tree.forward 3 = some 4)
        ∧ ∀ θ call panic, (s.thread θ).status ≠ .running call (.panicked panic) := by
  have plays
      : ((System.fresh : System (Fin 2) Nat Nat).replay .smallest [0, 1]
          ([10, 20, 30].flatMap (fun key => Move.whole 0 (.insert key key) 3)
            ++ Move.whole 0 (.insert 40 40) 8 ++ Move.whole 0 (.insert 50 50) 9
            ++ Move.whole 0 (.insert 60 60) 9 ++ Move.whole 0 (.remove (.ofKey 60)) 4
            ++ Move.whole 0 (.remove (.ofKey 50)) 4
            ++ .invoke 1 (.remove (.ofKey 40)) :: List.replicate 7 (.pass 1)
            ++ Move.whole 0 (.insert 11 11) 4 ++ Move.whole 0 (.insert 12 12) 4
            ++ .invoke 0 (.insert 13 13) :: List.replicate 7 (.pass 0))).map
          (fun played =>
            let tree := played.2.tree
            (((tree.page 5).right, (tree.page 2).previous),
              ((tree.page 2).right, tree.forward 3)))
        = some ((some 2, some 0), (some 3, some 4)) := by
    decide +kernel
  obtain ⟨⟨trace, s⟩, replayed, links⟩ := Option.map_eq_some_iff.mp plays
  obtain ⟨split, merged⟩ := Prod.mk.inj links
  exact ⟨s, Prod.mk.inj split, Prod.mk.inj merged,
    no_failure_reachable (System.reachable_of_replay (by decide) replayed)⟩

end BLink
