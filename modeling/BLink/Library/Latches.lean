import Mathlib.Data.List.Basic
import Mathlib.Logic.Function.Basic
import Mathlib.Logic.Relation
import Mathlib.Order.WellFoundedSet

/-! Shared and exclusive latches, their holders, and the workers that wait for them.
When all workers acquire latches along one strict order, no cycle of workers waits for
another's latches; nor when the latches serve those who wait for them in an order of their own.
-/

namespace Library

universe u v

/-- How a latch is held: together with other readers, or alone. -/
inductive Mode where
  | shared
  | exclusive
  deriving DecidableEq, Repr

variable {ω : Type u} {Λ : Type v} {held held' : ω → List (Λ × Mode)} {latch : Λ} {mode : Mode}

/-- Nobody holds the latch in a way that excludes the mode. -/
def Available (held : ω → List (Λ × Mode)) (latch : Λ) (mode : Mode) : Prop :=
  ∀ holder other, (latch, other) ∈ held holder → mode = .shared ∧ other = .shared

/-- What one holder has exclusively, no other holder has. -/
def Exclusive (held : ω → List (Λ × Mode)) : Prop :=
  ∀ holder other,
    holder ≠ other
    → ∀ latch mode, (latch, .exclusive) ∈ held holder → (latch, mode) ∉ held other

/-- Releasing latches excludes nobody. -/
theorem Exclusive.mono (exclusive : Exclusive held)
    (fewer : ∀ holder, held' holder ⊆ held holder)
    : Exclusive held' := by
  intro holder other differ latch mode mine theirs
  exact exclusive holder other differ latch mode (fewer holder mine) (fewer other theirs)

/-- An available latch may be acquired. -/
theorem Exclusive.acquire [DecidableEq ω] (exclusive : Exclusive held)
    (available : Available held latch mode) (worker : ω)
    : Exclusive (Function.update held worker ((latch, mode) :: held worker)) := by
  intro holder other differ latch' mode' mine theirs
  by_cases first : holder = worker
  · subst first
    rw [Function.update_self] at mine
    rw [Function.update_of_ne differ.symm] at theirs
    cases List.mem_cons.mp mine with
    | inl new =>
        obtain ⟨rfl, rfl⟩ := Prod.mk.inj new
        exact absurd (available other mode' theirs).1 nofun
    | inr old => exact exclusive holder other differ latch' mode' old theirs
  · rw [Function.update_of_ne first] at mine
    by_cases second : other = worker
    · subst second
      rw [Function.update_self] at theirs
      cases List.mem_cons.mp theirs with
      | inl new =>
          obtain ⟨rfl, rfl⟩ := Prod.mk.inj new
          exact absurd (available holder .exclusive mine).2 nofun
      | inr old => exact exclusive holder other differ latch' mode' mine old
    · rw [Function.update_of_ne second] at theirs
      exact exclusive holder other differ latch' mode' mine theirs

/-- What one holder had may pass to another one. -/
theorem Exclusive.pass [DecidableEq ω] (exclusive : Exclusive held) {giver taker : ω}
    (differ : giver ≠ taker)
    : Exclusive
        (Function.update (Function.update held giver []) taker (held giver ++ held taker)) := by
  intro holder other apart latch mode mine theirs
  have source {worker : ω} {mode : Mode} (member : (latch, mode)
      ∈ Function.update (Function.update held giver []) taker (held giver ++ held taker) worker)
      : worker = taker ∧ ((latch, mode) ∈ held giver ∨ (latch, mode) ∈ held taker)
        ∨ worker ≠ giver ∧ worker ≠ taker ∧ (latch, mode) ∈ held worker := by
    by_cases isTaker : worker = taker
    · subst isTaker
      rw [Function.update_self] at member
      exact .inl ⟨rfl, List.mem_append.mp member⟩
    · rw [Function.update_of_ne isTaker] at member
      by_cases isGiver : worker = giver
      · subst isGiver
        rw [Function.update_self] at member
        cases member
      · rw [Function.update_of_ne isGiver] at member
        exact .inr ⟨isGiver, isTaker, member⟩
  rcases source mine with ⟨rfl, first⟩ | ⟨notGiver, notTaker, first⟩
  · rcases source theirs with ⟨rfl, -⟩ | ⟨otherGiver, otherTaker, second⟩
    · exact apart rfl
    · cases first with
      | inl given => exact exclusive giver other otherGiver.symm latch mode given second
      | inr own => exact exclusive holder other apart latch mode own second
  · rcases source theirs with ⟨rfl, second⟩ | ⟨-, -, second⟩
    · cases second with
      | inl given => exact exclusive holder giver notGiver latch mode first given
      | inr own => exact exclusive holder other apart latch mode first own
    · exact exclusive holder other apart latch mode first second

/-- The first worker waits for a latch that the second one holds, in whatever mode. -/
def WaitsFor (wanted : ω → Option Λ) (held : ω → List (Λ × Mode)) (waiter holder : ω) : Prop :=
  ∃ latch mode, wanted waiter = some latch ∧ (latch, mode) ∈ held holder

-----------------------------------------------------------------------------------------
-- Chains of waiting workers
-----------------------------------------------------------------------------------------

variable {wanted : ω → Option Λ} {before : Λ → Λ → Prop} {ahead waits : ω → ω → Prop}

/-- A waiting worker waits for a latch; whom it waits for waits for a later latch, if for any, or
for the same latch further ahead.
-/
def Rises (wanted : ω → Option Λ) (before : Λ → Λ → Prop) (ahead waits : ω → ω → Prop) : Prop :=
  ∀ waiter other,
    waits waiter other
    → ∃ latch,
        wanted waiter = some latch
        ∧ ∀ later,
            wanted other = some later
            → before latch later ∨ latch = later ∧ ahead other waiter

/-- Along a chain of waiting workers, the wanted latches rise in the order, or the workers stand
further and further ahead.
-/
theorem Rises.chain (rises : Rises wanted before ahead waits)
    (trans : ∀ a b c, before a b → before b c → before a c)
    (further : ∀ a b c, ahead a b → ahead b c → ahead a c) {waiter last : ω}
    (chain : Relation.TransGen waits waiter last)
    : ∃ latch,
        wanted waiter = some latch
        ∧ ∀ later,
            wanted last = some later
            → before latch later ∨ latch = later ∧ ahead last waiter := by
  induction chain with
  | single edge => exact rises _ _ edge
  | tail _ edge ih =>
      obtain ⟨latch, wants, sofar⟩ := ih
      obtain ⟨middle, wantsMiddle, next⟩ := rises _ _ edge
      refine ⟨latch, wants, fun later wantsLater => ?_⟩
      rcases sofar middle wantsMiddle with lower | ⟨rfl, behind⟩
      · rcases next later wantsLater with higher | ⟨rfl, -⟩
        · exact .inl (trans _ _ _ lower higher)
        · exact .inl lower
      · refine (next later wantsLater).imp_right (fun same => ⟨same.1, ?_⟩)
        exact further _ _ _ same.2 behind

/-- Where waiting rises in strict orders, no worker waits for itself. -/
theorem Rises.acyclic (rises : Rises wanted before ahead waits) (irrefl : ∀ a, ¬ before a a)
    (trans : ∀ a b c, before a b → before b c → before a c) (apart : ∀ a, ¬ ahead a a)
    (further : ∀ a b c, ahead a b → ahead b c → ahead a c) (worker : ω)
    : ¬ Relation.TransGen waits worker worker := by
  intro cycle
  obtain ⟨latch, wants, rising⟩ := rises.chain trans further cycle
  rcases rising latch wants with higher | ⟨-, behind⟩
  · exact irrefl latch higher
  · exact apart worker behind

/-- Workers that acquire latches along a strict order never wait for each other in a cycle. -/
theorem WaitsFor.acyclic (irrefl : ∀ a, ¬ before a a)
    (trans : ∀ a b c, before a b → before b c → before a c)
    (ordered
      : ∀ worker latch mine mode,
          wanted worker = some latch → (mine, mode) ∈ held worker → before mine latch)
    (worker : ω)
    : ¬ Relation.TransGen (WaitsFor wanted held) worker worker := by
  have rises : Rises wanted before (fun _ _ => False) (WaitsFor wanted held) := by
    rintro waiter holder ⟨latch, mode, wants, holds⟩
    exact ⟨latch, wants, fun later waits => .inl (ordered holder later latch mode waits holds)⟩
  exact rises.acyclic irrefl trans (fun _ same => same) (fun _ _ _ first _ => first) worker

/-- Among finitely many workers that do not wait for each other in a cycle, every chain of waiting
workers comes to an end: by induction on the workers along the chain.
-/
theorem exists_last_of_acyclic (acyclic : ∀ worker, ¬ Relation.TransGen waits worker worker)
    {busy : Set ω} (finite : busy.Finite)
    (closed : ∀ waiter other, waits waiter other → other ∈ busy) {worker : ω}
    (member : worker ∈ busy)
    : ∃ last ∈ busy,
        Relation.ReflTransGen waits worker last ∧ ∀ next, ¬ waits last next := by
  let Later (later earlier : ω) : Prop := Relation.TransGen waits earlier later
  have : IsStrictOrder ω Later := {
    irrefl := acyclic
    trans := fun _ _ _ later earlier => earlier.trans later
  }
  have ends : busy.WellFoundedOn Later := finite.wellFoundedOn
  let Ends (worker : ω) : Prop :=
    ∃ last ∈ busy, Relation.ReflTransGen waits worker last ∧ ∀ next, ¬ waits last next
  refine Set.WellFoundedOn.induction (P := Ends) ends member (fun worker isBusy ih => ?_)
  by_cases blocked : ∃ next, waits worker next
  · obtain ⟨next, edge⟩ := blocked
    obtain ⟨last, isBusy, chain, ended⟩ := ih next (closed worker next edge) (.single edge)
    exact ⟨last, isBusy, .head edge chain, ended⟩
  · exact ⟨worker, isBusy, .refl, not_exists.mp blocked⟩

-----------------------------------------------------------------------------------------
-- Latches that serve waiting workers in an order
-----------------------------------------------------------------------------------------

/-- Two ways of holding a latch of which one worker's excludes the other's. -/
def Mode.Excludes (mode other : Mode) : Prop := ¬ (mode = .shared ∧ other = .shared)

variable {awaited : ω → Option (Λ × Mode)} {waiter other : ω}

/-- The second worker holds the latch that the first one waits for, and keeps it from it. -/
def HeldBack (awaited : ω → Option (Λ × Mode)) (held : ω → List (Λ × Mode)) (waiter other : ω)
    : Prop :=
  ∃ latch mode mode',
    awaited waiter = some (latch, mode) ∧ (latch, mode') ∈ held other ∧ mode.Excludes mode'

/-- Both workers wait for one latch, which they cannot hold together, the second one ahead of the
first.
-/
def QueuesBehind (awaited : ω → Option (Λ × Mode)) (ahead : ω → ω → Prop) (waiter other : ω)
    : Prop :=
  ∃ latch mode mode',
    awaited waiter = some (latch, mode)
    ∧ awaited other = some (latch, mode')
    ∧ ahead other waiter
    ∧ mode.Excludes mode'

/-- The second worker has to go on before the first one can: it holds the latch that the first one
waits for, or gets it first.
-/
def BlockedBy (awaited : ω → Option (Λ × Mode)) (held : ω → List (Λ × Mode))
    (ahead : ω → ω → Prop) (waiter other : ω)
    : Prop :=
  HeldBack awaited held waiter other ∨ QueuesBehind awaited ahead waiter other

/-- Workers that acquire latches along a strict order block each other along it, and along the
order in which the latches serve them.
-/
theorem BlockedBy.rises
    (ordered
      : ∀ worker latch mine mode mode',
          awaited worker = some (latch, mode) → (mine, mode') ∈ held worker → before mine latch)
    : Rises (fun worker => (awaited worker).map Prod.fst) before ahead
        (BlockedBy awaited held ahead) := by
  have wants {worker : ω} {latch : Λ} {mode : Mode} (awaits : awaited worker = some (latch, mode))
      : (awaited worker).map Prod.fst = some latch := by
    rw [awaits]
    rfl
  rintro waiter other (held | queues)
  · obtain ⟨latch, mode, mode', awaits, holds, -⟩ := held
    refine ⟨latch, wants awaits, fun later wanted => .inl ?_⟩
    obtain ⟨⟨_, mode''⟩, waits, rfl⟩ := Option.map_eq_some_iff.mp wanted
    exact ordered other _ latch mode'' mode' waits holds
  · obtain ⟨latch, mode, mode', awaits, waits, first, -⟩ := queues
    refine ⟨latch, wants awaits, fun later wanted => .inr ⟨?_, first⟩⟩
    exact Option.some.inj ((wants waits).symm.trans wanted)

end Library
