import BLink.Alone.Lookups
import BLink.Alone.Writers
import BLink.Library.Simulation
import BLink.Sequential.Calls

/-! The commands that a single thread gives to a map one after another.
A command is a call, with all its sections, or one of the operations that borrow the map
exclusively.
-/

namespace BLink

open Library

variable {K V : Type} [TotalOrd K]

/-- A command to a map that is not shared. -/
inductive Command (K V : Type) [TotalOrd K] where
  | call (call : Call K V)
  | clear
  | extend (pairs : List (K × V))
  | fromIter (pairs : List (K × V))

/-- A call of the only thread, from its invocation to its response. -/
def Performs (N : PageCapacity) (s : System Unit K V) (call : Call K V)
    (response : Response K V) (s' : System Unit K V)
    : Prop :=
  ∃ begun trace finished,
    (System.transitions Unit K V N).step s (.invoke () call) begun
    ∧ (System.transitions Unit K V N).Run begun trace finished
    ∧ (∀ transition ∈ trace, ∃ latched upgraded, transition.label = .pass () latched upgraded)
    ∧ (System.transitions Unit K V N).step finished (.respond () call response) s'

/-- `extend` inserts the pairs one by one. -/
inductive InsertsAll (N : PageCapacity)
    : System Unit K V → List (K × V) → System Unit K V → Prop
  | nil {s} : InsertsAll N s [] s
  | cons {s middle s' key value pairs previous}
    (inserted : Performs N s (.insert key value) previous middle)
    (rest : InsertsAll N middle pairs s')
    : InsertsAll N s ((key, value) :: pairs) s'

/-- A map with a new tree. Cursors borrow their map, so that only new ones can be used. -/
structure Renewed (N : PageCapacity) (s : System Unit K V) : Prop where
  tree : Tree.new N.size = .ok s.tree
  idle : (s.thread ()).status = .idle
  cursors : ∀ cursor, ((s.thread ()).cursors cursor).Created

/-- A command that is executed to its end, with its response. -/
inductive Executes (N : PageCapacity) (s : System Unit K V)
    : Command K V × Response K V → System Unit K V → Prop
  | call {call response s'} (performs : Performs N s call response s')
    : Executes N s (.call call, response) s'
  | clear {s'} (idle : (s.thread ()).status = .idle) (renewed : Renewed N s')
    : Executes N s (.clear, .unit) s'
  | extend {pairs s'} (idle : (s.thread ()).status = .idle) (inserted : InsertsAll N s pairs s')
    : Executes N s (.extend pairs, .unit) s'
  | fromIter {pairs middle s'} (idle : (s.thread ()).status = .idle)
    (renewed : Renewed N middle) (inserted : InsertsAll N middle pairs s')
    : Executes N s (.fromIter pairs, .unit) s'

/-- The histories of a map that is not shared, as runs whose labels are the commands with
their responses.
-/
def histories (K V : Type) [TotalOrd K] (N : PageCapacity)
    : TransitionSystem (System Unit K V) (Command K V × Response K V) where
  init := System.Initial
  step := Executes N

variable {N : PageCapacity} {s s' : System Unit K V} {map map' : SortedMap K V}
  {cursors cursors' : Nat → Cursor K} {call : Call K V} {response : Response K V}

theorem Renewed.initial (renewed : Renewed N s) : s.Initial where
  tree := by
    have new := renewed.tree
    rw [Tree.new, if_pos N.three_le] at new
    exact (Except.ok.inj new).symm
  idle := fun _ => renewed.idle
  cursors := fun _ => renewed.cursors

/-- Between two commands: the map that the tree stands for, and the cursors. -/
def Resting (N : PageCapacity) (s : System Unit K V) (map : SortedMap K V)
    (cursors : Nat → Cursor K)
    : Prop :=
  (s.thread ()).status = .idle ∧ ∃ shape, Serving N s shape map cursors

theorem Resting.initial (initial : s.Initial)
    : Resting N s SortedMap.empty (s.thread ()).cursors :=
  ⟨initial.idle (), _, .initial initial⟩

/-- The sections of a call do not change what it has found, by induction on the run. -/
theorem Serving.run {shape : Shape} {trace} (serving : Serving N s shape map cursors)
    (run : (System.transitions Unit K V N).Run s trace s')
    (sections
      : ∀ transition ∈ trace, ∃ latched upgraded, transition.label = .pass () latched upgraded)
    : ∃ shape', Serving N s' shape' map cursors := by
  induction run with
  | nil => exact ⟨shape, serving⟩
  | @snoc trace middle label finish run step ih =>
      obtain ⟨shape', serving'⟩ :=
        ih (fun transition member => sections transition (List.mem_append_left _ member))
      obtain ⟨latched, upgraded, isPass⟩ := sections ⟨middle, label, finish⟩ (by simp)
      subst isPass
      exact serving'.pass step

/-- A call answers from the map as it has found it. -/
theorem Resting.performs (resting : Resting N s map cursors)
    (performs : Performs N s call response s')
    : ∃ map' cursors',
        Resting N s' map' cursors' ∧ Answers call cursors map response map' cursors' := by
  obtain ⟨-, shape, serving⟩ := resting
  obtain ⟨begun, trace, finished, invoked, passed, sections, responded⟩ := performs
  obtain ⟨shape', serving'⟩ := (serving.invoke invoked).run passed sections
  obtain ⟨map', cursors', serving'', answers⟩ := serving'.respond responded
  refine ⟨map', cursors', ⟨?_, shape', serving''⟩, answers⟩
  cases responded with
  | respond => exact congrArg Thread.status (System.setThread_same ..)

/-- A call that finishes alone comes to its response, by induction on its sections. -/
theorem Runs.exists_run {passes steps : Nat} {pc : Pc K V}
    (runs : Runs N s () call passes steps pc)
    : ∃ trace finished response,
        (System.transitions Unit K V N).Run s trace finished
        ∧ (∀ transition ∈ trace, ∃ latched upgraded, transition.label = .pass () latched upgraded)
        ∧ (finished.thread ()).status = .running call (.done response) := by
  induction steps using Nat.strong_induction_on generalizing s passes pc with
  | _ steps ih =>
      cases runs.progress with
      | inl done =>
          obtain ⟨response, done⟩ := done
          exact ⟨[], s, response, .nil, nofun, done⟩
      | inr more =>
          obtain ⟨upgraded, next, step⟩ := more
          obtain ⟨later, rest, pc', runs', less, -, -⟩ := runs.step step
          obtain ⟨trace, finished, response, run, sections, done⟩ := ih rest less runs'
          refine ⟨⟨s, .pass () true upgraded, next⟩ :: trace, finished, response, ?_, ?_, done⟩
          · exact (TransitionSystem.Run.nil.snoc step).append run
          · intro transition member
            cases List.mem_cons.mp member with
            | inl first => exact ⟨true, upgraded, by rw [first]⟩
            | inr later => exact sections transition later

theorem Call.begin_isSettled (call : Call K V) {cursors : Nat → Cursor K}
    (ready : ∀ cursor, (cursors cursor).Ready)
    : (call.begin cursors).2.isSettled = (call.begin cursors).2.isFinal := by
  cases call with
  | next cursor =>
      obtain ⟨begun, seek, begins, -⟩ := Cursor.begin_ok (ready cursor)
      rw [Call.begin]
      simp only [begins]
      cases seek <;> rfl
  | _ => rfl

/-- Every call can be made between two commands, and returns. -/
theorem Resting.exists_performs (resting : Resting N s map cursors) (call : Call K V)
    : ∃ response s', Performs N s call response s' := by
  obtain ⟨idle, shape, serving⟩ := resting
  obtain ⟨levels, ordered⟩ := serving.ordered
  obtain ⟨-, same⟩ := serving.idle idle
  obtain ⟨steps, completes⟩ :=
    call.finishes serving.ok.inv N.three_le ordered (same.symm ▸ serving.ready)
  have runs
      : Runs N (s.setThread () {
          status := .running call (call.begin (s.thread ()).cursors).2
          cursors := (call.begin (s.thread ()).cursors).1
        }) () call 1 steps (call.begin (s.thread ()).cursors).2 := by
    refine ⟨?_, call.begin_isSettled (same.symm ▸ serving.ready), completes⟩
    exact congrArg Thread.status (System.setThread_same ..)
  obtain ⟨trace, finished, response, run, sections, done⟩ := runs.exists_run
  exact ⟨response, _, _, trace, finished, .invoke idle, run, sections, .respond done⟩

-----------------------------------------------------------------------------------------
-- Commands that borrow the map exclusively
-----------------------------------------------------------------------------------------

theorem Resting.insertsAll {pairs : List (K × V)} (resting : Resting N s map cursors)
    (inserted : InsertsAll N s pairs s')
    : Resting N s' (map.insertAll pairs) cursors := by
  induction inserted generalizing map with
  | nil => exact resting
  | cons first _ ih =>
      obtain ⟨map', cursors', resting', applies, rfl⟩ := resting.performs first
      obtain ⟨rfl, -⟩ := applies
      exact ih resting'

theorem Resting.exists_insertsAll (pairs : List (K × V)) (resting : Resting N s map cursors)
    : ∃ s', InsertsAll N s pairs s' := by
  induction pairs generalizing s map with
  | nil => exact ⟨s, .nil⟩
  | cons pair pairs ih =>
      obtain ⟨previous, middle, performs⟩ := resting.exists_performs (.insert pair.1 pair.2)
      obtain ⟨map', cursors', resting', applies, rfl⟩ := resting.performs performs
      obtain ⟨s', rest⟩ := ih resting'
      exact ⟨s', .cons performs rest⟩

/-- There is always a new map to replace the old one with. -/
theorem System.fresh_renewed (N : PageCapacity)
    : Renewed N (System.fresh : System Unit K V) where
  tree := by
    rw [Tree.new, if_pos N.three_le]
    rfl
  idle := rfl
  cursors := fun _ => .iter

/-- Every command can be executed between two commands. -/
theorem Resting.exists_executes (resting : Resting N s map cursors) (command : Command K V)
    : ∃ response s', Executes N s (command, response) s' := by
  have idle := resting.1
  have renewed : Renewed N (System.fresh : System Unit K V) := System.fresh_renewed N
  cases command with
  | call call =>
      obtain ⟨response, s', performs⟩ := resting.exists_performs call
      exact ⟨response, s', .call performs⟩
  | clear => exact ⟨.unit, _, .clear idle renewed⟩
  | extend pairs =>
      obtain ⟨s', inserted⟩ := resting.exists_insertsAll pairs
      exact ⟨.unit, s', .extend idle inserted⟩
  | fromIter pairs =>
      obtain ⟨s', inserted⟩ := (Resting.initial renewed.initial).exists_insertsAll pairs
      exact ⟨.unit, s', .fromIter idle renewed inserted⟩

end BLink
