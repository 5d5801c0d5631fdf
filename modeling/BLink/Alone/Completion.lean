import BLink.Runs.Invariant

/-! Operations that run alone: all latches are free, and only weak pointers may or may not
have lost their pages. A completion counts the sections that are left, and the structural
passes among them.
-/

namespace BLink

open Library

variable {ι K V : Type} [TotalOrd K]

/-- The section begins a structural pass, at the root. -/
def Pc.startsPass : Pc K V → Bool
  | .insertRoot _ _ | .removeRoot _ => true
  | _ => false

/-- `insert_attempt` or `remove_attempt` returns `Retry`. -/
def Pc.retries : Pc K V → Pc K V → Bool
  | .insertAttempt _ _ _, .splitRootIfFull _ _ => true
  | .removeAttempt _ _, .shrinkRoot _ none => true
  | _, _ => false

/-- Alone, the operation is done after at most `steps` sections, of which at most `passes`
begin a structural pass; no pass returns `Retry`.
-/
inductive Completes (N : Nat) : Nat → Nat → Tree K V → Pc K V → Prop
  | settled {passes steps t pc} (settled : pc.isSettled = true) (fine : ∀ panic, pc ≠ .panicked panic)
    : Completes N passes steps t pc
  | pass {passes steps later rest t pc} {t' : Bool → Tree K V} {pc' : Bool → Pc K V}
    (less : rest < steps) (count : later + pc.startsPass.toNat ≤ passes)
    (unsettled : pc.isSettled = false)
    (result
      : ∀ upgraded, t.latchedSection N true upgraded pc = .ok (t' upgraded, pc' upgraded))
    (keeps : ∀ upgraded, pc.retries (pc' upgraded) = false)
    (completes : ∀ upgraded, Completes N later rest (t' upgraded) (pc' upgraded))
    : Completes N passes steps t pc

/-- The operation completes after some number of sections. -/
def Finishes (N passes : Nat) (t : Tree K V) (pc : Pc K V) : Prop :=
  ∃ steps, Completes N passes steps t pc

variable {N passes later steps more : Nat} {t : Tree K V} {pc : Pc K V}

theorem Completes.mono (completes : Completes N passes steps t pc) (le : steps ≤ more)
    : Completes N passes more t pc := by
  cases completes with
  | settled settled fine => exact .settled settled fine
  | pass less count unsettled result keeps completes =>
      exact .pass (less.trans_le le) count unsettled result keeps completes

theorem Finishes.done (response : Response K V) : Finishes N passes t (.done response) :=
  ⟨0, .settled rfl nofun⟩

/-- An operation finishes when it does from wherever its next section leads. -/
theorem Finishes.pass (unsettled : pc.isSettled = false)
    (count : later + pc.startsPass.toNat ≤ passes)
    (next
      : ∀ upgraded, ∃ t' pc',
          t.latchedSection N true upgraded pc = .ok (t', pc')
          ∧ pc.retries pc' = false
          ∧ Finishes N later t' pc')
    : Finishes N passes t pc := by
  choose t' pc' result keeps finishes using next
  choose steps completes using finishes
  refine ⟨max (steps true) (steps false) + 1, ?_⟩
  refine .pass (Nat.lt_succ_self _) count unsettled result keeps ?_
  intro upgraded
  refine (completes upgraded).mono ?_
  cases upgraded with
  | true => exact Nat.le_max_left _ _
  | false => exact Nat.le_max_right _ _

end BLink
