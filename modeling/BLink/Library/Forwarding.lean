import Mathlib.Data.List.Perm.Subperm
import Mathlib.Data.List.Range

/-! Forwarding pointers: a place either is settled or forwards to another place.
Resolving follows the pointers to the settled place they end in; retiring a settled place
into another one keeps every resolution, up to that one step.
-/

namespace Library

universe u

variable {α : Type u} {next later : α → Option α}

/-- Following forwarding pointers from the first place ends in the second one. -/
inductive Resolves (next : α → Option α) : α → α → Prop
  | settled {place} (here : next place = none) : Resolves next place place
  | forward {place target final} (there : next place = some target)
    (rest : Resolves next target final)
    : Resolves next place final

namespace Resolves

/-- A resolution ends in a settled place. -/
theorem final_settled {place final : α} (resolves : Resolves next place final)
    : next final = none := by
  induction resolves with
  | settled here => exact here
  | forward _ _ ih => exact ih

/-- Resolution is deterministic. -/
theorem unique {place first second : α} (one : Resolves next place first)
    (two : Resolves next place second)
    : first = second := by
  induction one with
  | settled here =>
      cases two with
      | settled _ => rfl
      | forward there _ => rw [here] at there; cases there
  | forward there _ ih =>
      cases two with
      | settled here => rw [here] at there; cases there
      | forward also rest =>
          rw [there] at also
          cases also
          exact ih rest

/-- A settled place resolves only to itself. -/
theorem eq_of_settled {place final : α} (resolves : Resolves next place final)
    (here : next place = none)
    : final = place :=
  resolves.unique (.settled here)

/-- A forwarded place resolves as its target does. -/
theorem of_forward {place target final : α} (resolves : Resolves next place final)
    (there : next place = some target)
    : Resolves next target final := by
  cases resolves with
  | settled here => rw [here] at there; cases there
  | forward also rest =>
      rw [there] at also
      cases also
      exact rest

end Resolves

/-- Where resolutions lead after one place has been retired into another. -/
def mergeHeir [DecidableEq α] (retired survivor place : α) : α :=
  if place = retired then survivor else place

/-- Retiring a settled place into a settled one: what resolved to the first now resolves to
the second, and everything else resolves as before.
-/
theorem Resolves.retire [DecidableEq α] {retired survivor place final : α}
    (resolves : Resolves next place final)
    (same : ∀ other, other ≠ retired → later other = next other)
    (was : next retired = none) (forwards : later retired = some survivor)
    (ends : later survivor = none)
    : Resolves later place (mergeHeir retired survivor final) := by
  induction resolves with
  | @settled place here =>
      by_cases isRetired : place = retired
      · rw [mergeHeir, if_pos isRetired, isRetired]
        exact .forward forwards (.settled ends)
      · rw [mergeHeir, if_neg isRetired]
        exact .settled (by rw [same place isRetired, here])
  | @forward place target final there _ ih =>
      have kept : later place = some target := by
        rw [same place (by rintro rfl; rw [was] at there; cases there), there]
      exact .forward kept ih

-----------------------------------------------------------------------------------------
-- Following pointers with a budget
-----------------------------------------------------------------------------------------

/-- Follows at most `budget` forwarding pointers. -/
def follow (next : α → Option α) : Nat → α → Option α
  | 0, place => if next place = none then some place else none
  | budget + 1, place =>
      match next place with
      | none => some place
      | some target => follow next budget target

/-- What following pointers ends in, the place resolves to. -/
theorem resolves_of_follow {budget : Nat} {place final : α}
    (result : follow next budget place = some final)
    : Resolves next place final := by
  induction budget generalizing place with
  | zero =>
      rw [follow] at result
      split_ifs at result with here
      cases result
      exact .settled here
  | succ budget ih =>
      rw [follow] at result
      cases there : next place with
      | none =>
          rw [there] at result
          cases result
          exact .settled there
      | some target =>
          rw [there] at result
          exact .forward there (ih result)

/-- A resolution together with the number of pointers it follows. -/
inductive ResolvesIn (next : α → Option α) : Nat → α → α → Prop
  | settled {place} (here : next place = none) : ResolvesIn next 0 place place
  | forward {steps place target final} (there : next place = some target)
    (rest : ResolvesIn next steps target final)
    : ResolvesIn next (steps + 1) place final

theorem Resolves.exists_steps {place final : α} (resolves : Resolves next place final)
    : ∃ steps, ResolvesIn next steps place final := by
  induction resolves with
  | settled here => exact ⟨0, .settled here⟩
  | forward there _ ih =>
      obtain ⟨steps, rest⟩ := ih
      exact ⟨steps + 1, .forward there rest⟩

theorem ResolvesIn.steps_unique {m n : Nat} {place first second : α}
    (one : ResolvesIn next m place first) (two : ResolvesIn next n place second)
    : m = n := by
  induction one generalizing n with
  | settled here =>
      cases two with
      | settled _ => rfl
      | forward there _ => rw [here] at there; cases there
  | forward there _ ih =>
      cases two with
      | settled here => rw [here] at there; cases there
      | forward also rest =>
          rw [there] at also
          cases also
          rw [ih rest]

/-- The places a resolution forwards through are distinct, since each is a different number
of pointers away from the end.
-/
theorem ResolvesIn.exists_path {steps : Nat} {place final : α}
    (resolves : ResolvesIn next steps place final)
    : ∃ path : List α,
        path.length = steps
        ∧ path.Nodup
        ∧ ∀ visited ∈ path,
            next visited ≠ none ∧ ∃ left ≤ steps, ResolvesIn next left visited final := by
  induction resolves with
  | settled _ => exact ⟨[], rfl, List.nodup_nil, by simp⟩
  | @forward steps place target final there rest ih =>
      obtain ⟨path, length, nodup, visits⟩ := ih
      refine ⟨place :: path, by simp [length], List.nodup_cons.mpr ⟨?_, nodup⟩, ?_⟩
      · intro member
        obtain ⟨-, left, le, again⟩ := visits place member
        have same := again.steps_unique (.forward there rest)
        omega
      · intro visited member
        rcases List.mem_cons.mp member with rfl | inPath
        · exact ⟨by simp [there], steps + 1, Nat.le_refl _, .forward there rest⟩
        · obtain ⟨forwards, left, le, again⟩ := visits visited inPath
          exact ⟨forwards, left, Nat.le_succ_of_le le, again⟩

theorem ResolvesIn.follow_eq {steps budget : Nat} {place final : α}
    (resolves : ResolvesIn next steps place final) (enough : steps ≤ budget)
    : follow next budget place = some final := by
  induction resolves generalizing budget with
  | settled here => cases budget <;> simp [follow, here]
  | forward there _ ih =>
      match budget, enough with
      | budget + 1, enough => simp [follow, there, ih (Nat.le_of_succ_le_succ enough)]

/-- When only the places below a bound forward, that bound is budget enough. -/
theorem Resolves.follow_eq {next : Nat → Option Nat} {place final : Nat}
    (resolves : Resolves next place final) (bound : Nat) (below : ∀ p, next p ≠ none → p < bound)
    : follow next bound place = some final := by
  obtain ⟨steps, counted⟩ := resolves.exists_steps
  obtain ⟨path, length, nodup, visits⟩ := counted.exists_path
  have subset : path ⊆ List.range bound := by
    intro visited member
    exact List.mem_range.mpr (below visited (visits visited member).1)
  have bounded := (List.subperm_of_subset nodup subset).length_le
  rw [List.length_range, length] at bounded
  exact counted.follow_eq bounded

end Library
