import BLink.Model.Ownership
import Mathlib.Data.List.Dedup

/-! Schedules that replay one interleaving of a few threads.
A replay computes the transitions of a run, and decides what each weak pointer upgrades to by
closing the live references under ownership.
-/

namespace BLink

open Library

variable {ι K V : Type} [TotalOrd K]

-----------------------------------------------------------------------------------------
-- Which pages are alive
-----------------------------------------------------------------------------------------

/-- Follows strong references for some rounds. -/
def Tree.closure (t : Tree K V) : Nat → List PageId → List PageId
  | 0, pages => pages
  | rounds + 1, pages => t.closure rounds (pages ++ pages.flatMap t.strongRefs).dedup

omit [TotalOrd K] in
theorem Tree.exists_of_mem_closure {t : Tree K V} {rounds : Nat} {pages : List PageId}
    {page : PageId} (member : page ∈ t.closure rounds pages)
    : ∃ origin ∈ pages, Relation.ReflTransGen t.Owns origin page := by
  induction rounds generalizing pages with
  | zero => exact ⟨page, member, .refl⟩
  | succ rounds ih =>
      obtain ⟨origin, inside, path⟩ := ih member
      rw [List.mem_dedup, List.mem_append] at inside
      rcases inside with old | new
      · exact ⟨origin, old, path⟩
      · obtain ⟨earlier, inPages, owns⟩ := List.mem_flatMap.mp new
        exact ⟨earlier, inPages, .head (mem_strongRefs.mp owns) path⟩

omit [TotalOrd K] in
theorem Tree.mem_closure_of_mem (t : Tree K V) (rounds : Nat) {pages : List PageId}
    {page : PageId} (member : page ∈ pages)
    : page ∈ t.closure rounds pages := by
  induction rounds generalizing pages with
  | zero => exact member
  | succ rounds ih => exact ih (by simp [member])

namespace System

/-- The references that the root slot and the running calls hold. -/
def roots (s : System ι K V) (threads : List ι) : List PageId :=
  s.tree.root
    :: threads.flatMap (fun θ =>
      match (s.thread θ).status with
      | .idle => []
      | .running _ pc => pc.refs)

/-- The live pages, when the closure is complete. -/
def live (s : System ι K V) (threads : List ι) : Option (List PageId) :=
  let pages := s.tree.closure s.tree.pages (s.roots threads)
  if ∀ p ∈ pages, ∀ q ∈ s.tree.strongRefs p, q ∈ pages then some pages else none

/-- The computed pages are exactly the live ones. -/
theorem alive_iff {s : System ι K V} {threads : List ι} (all : ∀ θ, θ ∈ threads)
    {pages : List PageId} (computed : s.live threads = some pages) (page : PageId)
    : s.Alive page ↔ page ∈ pages := by
  rw [live] at computed
  split_ifs at computed with closed
  obtain rfl := Option.some.inj computed
  have isRoot (origin : PageId)
      : origin ∈ s.roots threads
        ↔ origin = s.tree.root
          ∨ ∃ θ call pc, (s.thread θ).status = .running call pc ∧ origin ∈ pc.refs := by
    rw [roots, List.mem_cons, List.mem_flatMap]
    refine or_congr_right ⟨?_, ?_⟩
    · rintro ⟨θ, -, member⟩
      cases status : (s.thread θ).status with
      | idle => rw [status] at member; cases member
      | running call pc =>
          rw [status] at member
          exact ⟨θ, call, pc, status, member⟩
    · rintro ⟨θ, call, pc, status, member⟩
      exact ⟨θ, all θ, by rw [status]; exact member⟩
  constructor
  · rintro ⟨origin, begins, path⟩
    have start := Tree.mem_closure_of_mem s.tree s.tree.pages
      ((isRoot origin).mpr begins)
    clear begins
    induction path with
    | refl => exact start
    | tail _ owns ih => exact closed _ ih _ (Tree.mem_strongRefs.mpr owns)
  · intro member
    obtain ⟨origin, begins, path⟩ := Tree.exists_of_mem_closure member
    exact ⟨origin, (isRoot origin).mp begins, path⟩

end System

-----------------------------------------------------------------------------------------
-- Replays
-----------------------------------------------------------------------------------------

/-- An instruction of a schedule: begin a call, pass a section with all latches free, or
return from a finished call.
-/
inductive Move (ι K V : Type) [TotalOrd K] where
  | invoke (thread : ι) (call : Call K V)
  | pass (thread : ι)
  | respond (thread : ι)

namespace System

variable [DecidableEq ι]

/-- Whether the next section's weak pointer upgrades. -/
def upgrade (s : System ι K V) (threads : List ι) (pc : Pc K V) : Option Bool :=
  match pc.upgrades s.tree with
  | none => some true
  | some page => (s.live threads).map (fun pages => page ∈ pages)

/-- The transition that an instruction describes, if it is possible. -/
def play (N : PageCapacity) (threads : List ι) (s : System ι K V)
    : Move ι K V → Option (Label ι K V × System ι K V)
  | .invoke θ call =>
      match (s.thread θ).status with
      | .running _ _ => none
      | .idle =>
          some (
            .invoke θ call,
            s.setThread θ {
              status := .running call (call.begin (s.thread θ).cursors).2
              cursors := (call.begin (s.thread θ).cursors).1
            }
          )
  | .pass θ =>
      match (s.thread θ).status with
      | .idle => none
      | .running call pc =>
          if pc.isFinal then
            none
          else
            (s.upgrade threads pc).map (fun upgraded =>
              (
                .pass θ true upgraded,
                s.afterSection θ call (s.tree.latchedSection N.size true upgraded pc)
              ))
  | .respond θ =>
      match (s.thread θ).status with
      | .running call (.done response) =>
          some (.respond θ call response, s.setThread θ { s.thread θ with status := .idle })
      | _ => none

theorem step_of_play {N : PageCapacity} {threads : List ι} (all : ∀ θ, θ ∈ threads)
    {s s' : System ι K V} {move : Move ι K V} {label : Label ι K V}
    (played : s.play N threads move = some (label, s'))
    : (transitions ι K V N).step s label s' := by
  cases move with
  | invoke θ call =>
      cases status : (s.thread θ).status with
      | running _ _ => simp [play, status] at played
      | idle =>
          simp only [play, status, Option.some.injEq, Prod.mk.injEq] at played
          obtain ⟨rfl, rfl⟩ := played
          exact .invoke status
  | pass θ =>
      cases status : (s.thread θ).status with
      | idle => simp [play, status] at played
      | running call pc =>
          cases final : pc.isFinal with
          | true => simp [play, status, final] at played
          | false =>
              simp only [play, status, final, Bool.false_eq_true, if_false,
                Option.map_eq_some_iff, Prod.mk.injEq] at played
              obtain ⟨upgraded, decided, rfl, rfl⟩ := played
              refine .pass status final (fun page weak => ?_)
              simp only [upgrade, weak, Option.map_eq_some_iff] at decided
              obtain ⟨pages, computed, rfl⟩ := decided
              exact fun alive => decide_eq_true ((alive_iff all computed page).mp alive)
  | respond θ =>
      cases status : (s.thread θ).status with
      | idle => simp [play, status] at played
      | running call pc =>
          cases pc with
          | done response =>
              simp only [play, status, Option.some.injEq, Prod.mk.injEq] at played
              obtain ⟨rfl, rfl⟩ := played
              exact .respond status
          | _ => simp [play, status] at played

/-- Plays a schedule, and returns the transitions with the state at the end. -/
def replay (N : PageCapacity) (threads : List ι) (s : System ι K V) (moves : List (Move ι K V))
    : Option (List (Transition (System ι K V) (Label ι K V)) × System ι K V) :=
  TransitionSystem.replay (play N threads) s moves

/-- What a replay returns is a run. -/
theorem run_of_replay {N : PageCapacity} {threads : List ι} (all : ∀ θ, θ ∈ threads)
    {moves : List (Move ι K V)} {s s' : System ι K V}
    {trace : List (Transition (System ι K V) (Label ι K V))}
    (replayed : s.replay N threads moves = some (trace, s'))
    : (transitions ι K V N).Run s trace s' :=
  .of_replay (fun _ _ _ _ played => step_of_play all played) replayed

/-- The system before any call, with iterators for cursors. -/
def fresh : System ι K V where
  tree := Tree.empty
  thread _ := { status := .idle, cursors := fun _ => .newIter }

omit [DecidableEq ι] in
theorem fresh_initial : (fresh : System ι K V).Initial where
  tree := rfl
  idle _ := rfl
  cursors _ _ := .iter

theorem fresh_init (N : PageCapacity) : (transitions ι K V N).init fresh := fresh_initial

/-- What a replay from the beginning ends in is reachable. -/
theorem reachable_of_replay {N : PageCapacity} {threads : List ι} (all : ∀ θ, θ ∈ threads)
    {moves : List (Move ι K V)} {s : System ι K V}
    {trace : List (Transition (System ι K V) (Label ι K V))}
    (replayed : fresh.replay N threads moves = some (trace, s))
    : (transitions ι K V N).Reachable s :=
  ⟨fresh, trace, fresh_initial, run_of_replay all replayed⟩

/-- Plays one schedule from the beginning, and then another. -/
def rehearse (N : PageCapacity) (threads : List ι) (before during : List (Move ι K V))
    : Option (System ι K V × List (Transition (System ι K V) (Label ι K V)) × System ι K V) :=
  ((fresh : System ι K V).replay N threads before).bind (fun (_, start) =>
    (start.replay N threads during).map (fun (trace, finish) => (start, trace, finish)))

/-- What the second schedule plays is a run from a reachable state. -/
theorem run_of_rehearse {N : PageCapacity} {threads : List ι} (all : ∀ θ, θ ∈ threads)
    {before during : List (Move ι K V)} {start finish : System ι K V}
    {trace : List (Transition (System ι K V) (Label ι K V))}
    (rehearsed : rehearse N threads before during = some (start, trace, finish))
    : (transitions ι K V N).Reachable start
      ∧ (transitions ι K V N).Run start trace finish := by
  simp only [rehearse, Option.bind_eq_some_iff, Option.map_eq_some_iff, Prod.exists,
    Prod.mk.injEq] at rehearsed
  obtain ⟨_, _, earlier, _, _, later, rfl, rfl, rfl⟩ := rehearsed
  exact ⟨reachable_of_replay all earlier, run_of_replay all later⟩

end System

/-- The smallest page capacity. -/
def PageCapacity.smallest : PageCapacity := ⟨3, Nat.le_refl 3⟩

/-- A whole call of one thread, which passes `sections` sections. -/
def Move.whole (θ : ι) (call : Call K V) (sections : Nat) : List (Move ι K V) :=
  .invoke θ call :: (List.replicate sections (.pass θ) ++ [.respond θ])

end BLink
