import BLink.Library.TransitionSystem

/-! Refinement between transition systems, and its proof by a forward simulation.
An observer decides which steps of the refining system are visible in the refined one, and
under which label.
-/

namespace Library

universe u v w x

variable {σ : Type u} {ℓ : Type v} {τ : Type w} {ℓ' : Type x}
  {concrete : TransitionSystem σ ℓ} {abstract : TransitionSystem τ ℓ'} {observe : ℓ → Option ℓ'}
  {related : σ → τ → Prop}

/-- The labels that are observed along a run. -/
def observed (observe : ℓ → Option ℓ') (trace : List (Transition σ ℓ)) : List ℓ' :=
  trace.filterMap (fun transition => observe transition.label)

theorem observed_snoc {trace : List (Transition σ ℓ)} {last : Transition σ ℓ}
    : observed observe (trace ++ [last])
      = observed observe trace ++ (observe last.label).toList := by
  rw [observed, List.filterMap_append, observed]
  cases seen : observe last.label <;> simp [seen]

theorem observed_some {trace : List (Transition σ ℓ)}
    : observed some trace = trace.map Transition.label :=
  congrFun List.filterMap_eq_map' trace

theorem observed_length_le {trace : List (Transition σ ℓ)}
    : (observed observe trace).length ≤ trace.length :=
  List.length_filterMap_le _ _

/-- What is observed of a run depends on its labels only. -/
theorem observed_congr {trace : List (Transition σ ℓ)} {path : List (Transition τ ℓ)}
    (labels : path.map Transition.label = trace.map Transition.label)
    : observed observe path = observed observe trace := by
  have same := congrArg (List.filterMap observe) labels
  rwa [List.filterMap_map, List.filterMap_map] at same

/-- What all labels of a run are, those of a run with the same labels are. -/
theorem forall_label_congr (P : ℓ → Prop) {trace : List (Transition σ ℓ)}
    {path : List (Transition τ ℓ)} (labels : path.map Transition.label = trace.map Transition.label)
    (all : ∀ transition ∈ trace, P transition.label)
    : ∀ transition ∈ path, P transition.label := by
  rw [← List.forall_mem_map, labels]
  exact List.forall_mem_map.mpr all

/-- A relation that each step keeps: a visible step is matched by a step with its label, and
an invisible one leaves the abstract state as it is.
-/
structure Simulation (concrete : TransitionSystem σ ℓ) (abstract : TransitionSystem τ ℓ')
    (observe : ℓ → Option ℓ') (related : σ → τ → Prop)
    : Prop where
  init : ∀ s, concrete.init s → ∃ a, abstract.init a ∧ related s a
  visible
    : ∀ s a label s' seen,
        related s a → concrete.step s label s' → observe label = some seen
        → ∃ a', abstract.step a seen a' ∧ related s' a'
  invisible
    : ∀ s a label s',
        related s a → concrete.step s label s' → observe label = none → related s' a

/-- A run is matched step by step, by induction on the run. -/
theorem Simulation.run (simulation : Simulation concrete abstract observe related)
    {start finish : σ} {origin : τ} {trace} (begins : related start origin)
    (run : concrete.Run start trace finish)
    : ∃ path goal,
        abstract.Run origin path goal
        ∧ path.map Transition.label = observed observe trace
        ∧ related finish goal := by
  induction run with
  | nil => exact ⟨[], origin, .nil, rfl, begins⟩
  | @snoc trace middle label finish run step ih =>
      obtain ⟨path, goal, matched, labels, relates⟩ := ih
      rw [observed_snoc, ← labels]
      cases seen : observe label with
      | none =>
          exact ⟨path, goal, matched, by simp,
            simulation.invisible _ _ _ _ relates step seen⟩
      | some visible =>
          obtain ⟨goal', step', relates'⟩ := simulation.visible _ _ _ _ _ relates step seen
          exact ⟨_, goal', matched.snoc step', by simp, relates'⟩

/-- Reachable states are related to reachable states. -/
theorem Simulation.reachable (simulation : Simulation concrete abstract observe related) {s : σ}
    (reached : concrete.Reachable s)
    : ∃ a, abstract.Reachable a ∧ related s a := by
  obtain ⟨start, trace, initial, run⟩ := reached
  obtain ⟨origin, initial', relates⟩ := simulation.init start initial
  obtain ⟨path, goal, matched, -, relates'⟩ := simulation.run relates run
  exact ⟨goal, ⟨origin, path, initial', matched⟩, relates'⟩

end Library
