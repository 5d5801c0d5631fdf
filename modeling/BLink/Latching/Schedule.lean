import BLink.Model.Latches
import BLink.Runs.Schedule

/-! Schedules that replay one interleaving of latch acquisitions.
A thread's next step is determined by what it does next; a replay says whose turn it is.
-/

namespace BLink

open Library

variable {ι K V : Type} [TotalOrd K]

/-- An instruction of a schedule: begin a call, take the thread's next step, or leave the latch
of a returned record to a public guard.
-/
inductive Turn (ι K V : Type) [TotalOrd K] where
  | invoke (thread : ι) (call : Call K V)
  | advance (thread : ι)
  | retain (thread : ι)

namespace Machine

/-- Whether the latch is available, when these are all threads. -/
def isAvailable (m : Machine ι K V) (threads : List ι) (latch : Latch) (mode : Mode) : Bool :=
  (none :: threads.map some).all (fun holder =>
    (m.held holder).all (fun holding =>
      holding.1 ≠ latch || (mode = .shared && holding.2 = .shared)))

theorem available_of_isAvailable {m : Machine ι K V} {threads : List ι}
    (all : ∀ θ, θ ∈ threads) {latch : Latch} {mode : Mode}
    (available : m.isAvailable threads latch mode = true)
    : Available m.held latch mode := by
  intro holder other member
  have listed : holder ∈ none :: threads.map some := by
    cases holder with
    | none => exact List.mem_cons_self
    | some θ => exact List.mem_cons_of_mem none (List.mem_map_of_mem (all θ))
  have fits := List.all_eq_true.mp (List.all_eq_true.mp available holder listed) _ member
  simpa using fits

variable [DecidableEq ι]

/-- The next step of a thread, unless it has to wait. Weak pointers are not upgraded here. -/
def advance (N : PageCapacity) (threads : List ι) (m : Machine ι K V) (θ : ι)
    : Option (Action ι K V × Machine ι K V) :=
  match (m.system.thread θ).status with
  | .idle => none
  | .running call pc =>
      match m.worker θ with
      | { phase := .await latch mode, .. } =>
          if m.isAvailable threads latch mode then
            some (.acquire θ, m.grant N θ pc latch mode)
          else
            none
      | { phase := .attempt p, held } =>
          if m.isAvailable threads (.page p) .exclusive then
            some (.latch θ, m.grant N θ pc (.page p) .exclusive)
          else
            some (.miss θ, m.setWorker θ { held, phase := .act false })
      | { phase := .hop target, held := _ :: rest } =>
          some (.hop θ, m.setWorker θ { held := rest, phase := .await (.page target) .exclusive })
      | { phase := .act latched, .. } =>
          match pc.upgrades m.system.tree with
          | none => some (.act θ true, m.perform N θ call latched true pc)
          | some _ => none
      | { phase := .load, .. } =>
          some (
            .load θ,
            (m.setThread θ {
              m.system.thread θ with
              status := .running call (pc.loaded m.counter)
            }).setWorker θ .resting
          )
      | { phase := .count tally, held } =>
          some (
            .count θ,
            { m.setWorker θ { held, phase := .release } with
              counter := tally.update m.counter
            }
          )
      | { phase := .release, held := _ :: rest } =>
          some (.release θ, m.setWorker θ { held := rest, phase := .release })
      | { phase := .release, held := [] } =>
          match pc with
          | .done response =>
              some (
                .respond θ call response,
                m.setThread θ { m.system.thread θ with status := .idle }
              )
          | pc => if pc.isFinal then none else some (.enter θ, m.enter N θ pc)
      | _ => none

/-- The transition that an instruction describes, if it is possible. -/
def play (N : PageCapacity) (threads : List ι) (m : Machine ι K V)
    : Turn ι K V → Option (Action ι K V × Machine ι K V)
  | .invoke θ call =>
      match (m.system.thread θ).status with
      | .running _ _ => none
      | .idle =>
          some (
            .invoke θ call,
            (m.setThread θ {
              status := .running call (call.begin (m.system.thread θ).cursors).2
              cursors := (call.begin (m.system.thread θ).cursors).1
            }).enter N θ (call.begin (m.system.thread θ).cursors).2
          )
  | .advance θ => m.advance N threads θ
  | .retain θ =>
      match (m.system.thread θ).status, m.worker θ with
      | .running _ (.done (.entry (some _))), { held := [holding], phase := .release } =>
          some (.retain θ, { m.setWorker θ .resting with guards := holding :: m.guards })
      | _, _ => none

/-- What a thread does next is a step of the machine. -/
theorem step_of_advance {N : PageCapacity} {threads : List ι} (all : ∀ θ, θ ∈ threads)
    {m m' : Machine ι K V} {θ : ι} {action : Action ι K V}
    (advanced : m.advance N threads θ = some (action, m'))
    : Step N m action m' := by
  unfold advance at advanced
  cases status : (m.system.thread θ).status with
  | idle => simp [status] at advanced
  | running call pc =>
      simp only [status] at advanced
      generalize same : m.worker θ = worker at advanced
      obtain ⟨held, phase⟩ := worker
      cases phase with
      | await latch mode =>
          dsimp only at advanced
          split at advanced
          next free =>
            cases advanced
            exact .acquire status (congrArg Worker.phase same)
              (available_of_isAvailable all free)
          next => cases advanced
      | attempt p =>
          dsimp only at advanced
          split at advanced
          next free =>
            cases advanced
            exact .latch status (congrArg Worker.phase same) (available_of_isAvailable all free)
          next =>
            cases advanced
            have missed : Step N m (.miss θ) _ := .miss (congrArg Worker.phase same)
            rwa [same] at missed
      | hop target =>
          cases held with
          | nil => cases advanced
          | cons newest rest => cases advanced; exact .hop same
      | act latched =>
          dsimp only at advanced
          cases weak : pc.upgrades m.system.tree with
          | none =>
              simp only [weak, Option.some.injEq, Prod.mk.injEq] at advanced
              obtain ⟨rfl, rfl⟩ := advanced
              refine .act status (congrArg Worker.phase same) (fun page upgrades => ?_)
              cases weak.symm.trans upgrades
          | some page => simp [weak] at advanced
      | load => cases advanced; exact .load status (congrArg Worker.phase same)
      | count tally =>
          cases advanced
          have counted : Step N m (.count θ) _ := .count (congrArg Worker.phase same)
          rwa [same] at counted
      | release =>
          cases held with
          | cons newest rest => cases advanced; exact .release same
          | nil =>
              cases pc with
              | done response => cases advanced; exact .respond status same
              | panicked => cases advanced
              | _ => cases advanced; exact .enter status rfl same

/-- What an instruction describes is a step of the machine. -/
theorem step_of_play {N : PageCapacity} {threads : List ι} (all : ∀ θ, θ ∈ threads)
    {m m' : Machine ι K V} {turn : Turn ι K V} {action : Action ι K V}
    (played : m.play N threads turn = some (action, m'))
    : (transitions ι K V N).step m action m' := by
  cases turn with
  | invoke θ call =>
      cases status : (m.system.thread θ).status with
      | running _ _ => simp [play, status] at played
      | idle =>
          simp only [play, status, Option.some.injEq, Prod.mk.injEq] at played
          obtain ⟨rfl, rfl⟩ := played
          exact .invoke status
  | advance θ => exact step_of_advance all played
  | retain θ =>
      unfold play at played
      dsimp only at played
      split at played
      next holding done last =>
        cases played
        exact .retain done last
      next => cases played

/-- Plays a schedule, and returns the transitions with the machine at the end. -/
def replay (N : PageCapacity) (threads : List ι) (m : Machine ι K V) (turns : List (Turn ι K V))
    : Option (List (Transition (Machine ι K V) (Action ι K V)) × Machine ι K V) :=
  TransitionSystem.replay (play N threads) m turns

/-- What a replay returns is a run. -/
theorem run_of_replay {N : PageCapacity} {threads : List ι} (all : ∀ θ, θ ∈ threads)
    {turns : List (Turn ι K V)} {m m' : Machine ι K V}
    {trace : List (Transition (Machine ι K V) (Action ι K V))}
    (replayed : m.replay N threads turns = some (trace, m'))
    : (transitions ι K V N).Run m trace m' :=
  .of_replay (fun _ _ _ _ played => step_of_play all played) replayed

/-- The machine before any call. -/
def fresh : Machine ι K V where
  system := .fresh
  worker _ := .resting
  index _ := none
  guards := []
  counter := 0

omit [DecidableEq ι] in
theorem fresh_initial : (fresh : Machine ι K V).Initial where
  system := System.fresh_initial
  worker _ := rfl
  guards := rfl
  counter := rfl

/-- What a replay from the beginning ends in is reachable. -/
theorem reachable_of_replay {N : PageCapacity} {threads : List ι} (all : ∀ θ, θ ∈ threads)
    {turns : List (Turn ι K V)} {m : Machine ι K V}
    {trace : List (Transition (Machine ι K V) (Action ι K V))}
    (replayed : fresh.replay N threads turns = some (trace, m))
    : (transitions ι K V N).Reachable m :=
  ⟨fresh, trace, fresh_initial, run_of_replay all replayed⟩

end Machine

/-- A whole call of one thread, which takes `steps` steps until it returns. -/
def Turn.whole (θ : ι) (call : Call K V) (steps : Nat) : List (Turn ι K V) :=
  .invoke θ call :: List.replicate steps (.advance θ)

/-- In a tree of two leaves, with room for three records each, the left leaf is full, and the
first thread retains a guard of the right leaf.
-/
def Turn.guarded : List (Turn (Fin 2) Nat Nat) :=
  Turn.whole 0 (.insert 10 10) 13 ++ Turn.whole 0 (.insert 20 20) 13
    ++ Turn.whole 0 (.insert 30 30) 13 ++ Turn.whole 0 (.insert 40 40) 35
    ++ Turn.whole 0 (.insert 11 11) 17 ++ Turn.whole 0 (.insert 12 12) 17
    ++ Turn.whole 0 (.get (.ofKey 20)) 10 ++ [.retain 0, .advance 0]

end BLink
