import Mathlib.Data.List.Basic
import Mathlib.Data.List.Induction

/-! Labelled transition systems, their finite runs, and the induction rules for them.
A run remembers each transition with both of its states, so that statements about an
instant between two events can name the state of that instant.
-/

namespace Library

universe u v w

/-- States, labels, the initial states and the steps between states. -/
structure TransitionSystem (σ : Type u) (ℓ : Type v) where
  init : σ → Prop
  step : σ → ℓ → σ → Prop

/-- One step of a run with the states around it. -/
structure Transition (σ : Type u) (ℓ : Type v) where
  source : σ
  label : ℓ
  target : σ

variable {σ : Type u} {ℓ : Type v} {system : TransitionSystem σ ℓ}

namespace TransitionSystem

/-- A finite run from one state to another, with its transitions in order. -/
inductive Run (system : TransitionSystem σ ℓ) (start : σ)
    : List (Transition σ ℓ) → σ → Prop
  | nil : system.Run start [] start
  | snoc {trace middle label finish} (run : system.Run start trace middle)
    (step : system.step middle label finish)
    : system.Run start (trace ++ [⟨middle, label, finish⟩]) finish

/-- The states that some run from an initial state ends in. -/
def Reachable (system : TransitionSystem σ ℓ) (state : σ) : Prop :=
  ∃ start trace, system.init start ∧ system.Run start trace state

theorem Reachable.of_init {state : σ} (initial : system.init state)
    : system.Reachable state :=
  ⟨state, [], initial, .nil⟩

theorem Reachable.step {state next : σ} {label : ℓ} (reached : system.Reachable state)
    (step : system.step state label next)
    : system.Reachable next := by
  obtain ⟨start, trace, initial, run⟩ := reached
  exact ⟨start, _, initial, run.snoc step⟩

theorem Reachable.run {state next : σ} {trace} (reached : system.Reachable state)
    (run : system.Run state trace next)
    : system.Reachable next := by
  induction run with
  | nil => exact reached
  | snoc _ step ih => exact ih.step step

/-- What holds initially and survives every step from a reachable state holds in every
reachable state.
-/
theorem Reachable.invariant {I : σ → Prop} {state : σ} (reached : system.Reachable state)
    (initial : ∀ s, system.init s → I s)
    (preserved
      : ∀ s label s', system.Reachable s → I s → system.step s label s' → I s')
    : I state := by
  obtain ⟨start, trace, begins, run⟩ := reached
  induction run with
  | nil => exact initial start begins
  | @snoc trace middle label finish run step ih =>
      exact preserved middle label finish ⟨start, trace, begins, run⟩ ih step

/-- The same rule along one run: a predicate of the transitions so far and the state. -/
theorem Run.induct {start finish : σ} {trace} {I : List (Transition σ ℓ) → σ → Prop}
    (run : system.Run start trace finish) (initial : I [] start)
    (preserved
      : ∀ trace s label s',
          system.Run start trace s → I trace s → system.step s label s'
          → I (trace ++ [⟨s, label, s'⟩]) s')
    : I trace finish := by
  induction run with
  | nil => exact initial
  | @snoc trace middle label finish run step ih =>
      exact preserved trace middle label finish run ih step

theorem Run.append {start middle finish : σ} {front back}
    (first : system.Run start front middle) (second : system.Run middle back finish)
    : system.Run start (front ++ back) finish := by
  induction second with
  | nil => simpa using first
  | snoc _ step ih => simpa [List.append_assoc] using ih.snoc step

/-- The last transition of a run is a step, after the run before it. -/
theorem Run.of_snoc {start finish : σ} {trace} {last : Transition σ ℓ}
    (run : system.Run start (trace ++ [last]) finish)
    : system.Run start trace last.source
      ∧ system.step last.source last.label last.target
      ∧ finish = last.target := by
  generalize whole : trace ++ [last] = full at run
  cases run with
  | nil => simp at whole
  | snoc run step =>
      obtain ⟨rfl, isLast⟩ := List.append_inj' whole rfl
      obtain rfl := List.singleton_inj.mp isLast
      exact ⟨run, step, rfl⟩

/-- A run can be cut at every point of its trace. -/
theorem Run.of_append {start finish : σ} {front back}
    (run : system.Run start (front ++ back) finish)
    : ∃ middle, system.Run start front middle ∧ system.Run middle back finish := by
  induction back using List.reverseRecOn generalizing finish with
  | nil => exact ⟨finish, by simpa using run, .nil⟩
  | append_singleton back last ih =>
      rw [← List.append_assoc] at run
      obtain ⟨earlier, step, rfl⟩ := run.of_snoc
      obtain ⟨middle, first, second⟩ := ih earlier
      exact ⟨middle, first, second.snoc step⟩

/-- Every transition in a run's trace is a step, after the run before it. -/
theorem Run.of_append_cons {start finish : σ} {front back} {transition : Transition σ ℓ}
    (run : system.Run start (front ++ transition :: back) finish)
    : system.Run start front transition.source
      ∧ system.step transition.source transition.label transition.target := by
  have whole : system.Run start ((front ++ [transition]) ++ back) finish := by simpa using run
  obtain ⟨middle, first, -⟩ := whole.of_append
  exact ⟨first.of_snoc.1, first.of_snoc.2.1⟩

/-- Every transition of a run is a step, from a state that the run's beginning reaches. -/
theorem Run.step_of_mem {start finish : σ} {trace}
    (run : system.Run start trace finish) {transition} (member : transition ∈ trace)
    : system.step transition.source transition.label transition.target
      ∧ ∃ earlier, system.Run start earlier transition.source := by
  induction run with
  | nil => cases member
  | snoc run step ih =>
      rcases List.mem_append.mp member with earlier | last
      · exact ih earlier
      · obtain rfl := List.mem_singleton.mp last
        exact ⟨step, _, run⟩

-----------------------------------------------------------------------------------------
-- Replays
-----------------------------------------------------------------------------------------

variable {Move : Type w} {play : σ → Move → Option (ℓ × σ)} {state finish : σ}
  {moves : List Move} {trace : List (Transition σ ℓ)}

/-- Plays a move, if it is allowed; the step is labelled with the move and its result. -/
def perform {Result : Type w} (allowed : σ → Move → Prop)
    [∀ state move, Decidable (allowed state move)] (run : σ → Move → Result × σ) (state : σ)
    (move : Move)
    : Option ((Move × Result) × σ) :=
  if allowed state move then
    some ((move, (run state move).1), (run state move).2)
  else
    none

theorem of_perform {Result : Type w} {allowed : σ → Move → Prop}
    [∀ state move, Decidable (allowed state move)] {run : σ → Move → Result × σ} {move : Move}
    {label : Move × Result}
    (performed : perform allowed run state move = some (label, finish))
    : label.1 = move ∧ allowed state label.1 ∧ run state label.1 = (label.2, finish) := by
  by_cases isAllowed : allowed state move
  · rw [perform, if_pos isAllowed] at performed
    obtain ⟨rfl, rfl⟩ := Prod.mk.inj (Option.some.inj performed)
    exact ⟨rfl, isAllowed, rfl⟩
  · rw [perform, if_neg isAllowed] at performed
    cases performed

/-- Plays moves, each of which is a step or cannot be played, and returns the transitions with the
state at the end.
-/
def replay (play : σ → Move → Option (ℓ × σ)) (state : σ)
    : List Move → Option (List (Transition σ ℓ) × σ)
  | [] => some ([], state)
  | move :: moves =>
      (play state move).bind (fun (label, middle) =>
        (replay play middle moves).map (fun (trace, finish) =>
          (⟨state, label, middle⟩ :: trace, finish)))

theorem replay_cons_eq_some {move : Move}
    (replayed : replay play state (move :: moves) = some (trace, finish))
    : ∃ label middle rest,
        play state move = some (label, middle)
        ∧ replay play middle moves = some (rest, finish)
        ∧ trace = ⟨state, label, middle⟩ :: rest := by
  simp only [replay, Option.bind_eq_some_iff, Option.map_eq_some_iff, Prod.exists,
    Prod.mk.injEq] at replayed
  obtain ⟨label, middle, played, rest, _, later, rfl, rfl⟩ := replayed
  exact ⟨label, middle, rest, played, later, rfl⟩

/-- Every transition of a replay is the play of a move. -/
theorem exists_move_of_replay (replayed : replay play state moves = some (trace, finish))
    {transition : Transition σ ℓ} (member : transition ∈ trace)
    : ∃ move ∈ moves, play transition.source move = some (transition.label, transition.target) := by
  induction moves generalizing state trace with
  | nil =>
      obtain ⟨rfl, -⟩ := Prod.mk.inj (Option.some.inj replayed)
      cases member
  | cons move moves ih =>
      obtain ⟨label, middle, rest, played, later, rfl⟩ := replay_cons_eq_some replayed
      rcases List.mem_cons.mp member with rfl | inRest
      · exact ⟨move, List.mem_cons_self, played⟩
      · obtain ⟨other, inMoves, plays⟩ := ih later inRest
        exact ⟨other, List.mem_cons_of_mem _ inMoves, plays⟩

/-- What a replay returns is a run, if what can be played is a step. -/
theorem Run.of_replay
    (sound
      : ∀ state move label next,
          play state move = some (label, next) → system.step state label next)
    (replayed : replay play state moves = some (trace, finish))
    : system.Run state trace finish := by
  induction moves generalizing state trace with
  | nil =>
      obtain ⟨rfl, rfl⟩ := Prod.mk.inj (Option.some.inj replayed)
      exact .nil
  | cons move moves ih =>
      obtain ⟨label, middle, rest, played, later, rfl⟩ := replay_cons_eq_some replayed
      have first := Run.nil.snoc (sound _ _ _ _ played)
      exact first.append (ih later)

end TransitionSystem

end Library
