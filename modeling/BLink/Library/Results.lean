import Mathlib.Order.Basic

/-! Postconditions of computations that may fail: what holds of the result, if there is one.
-/

namespace Library

universe u v

variable {ε α β : Type u} {x : Except ε α} {f : α → Except ε β} {Q : β → Prop}

/-- A computation that goes on succeeds if both of its parts do. -/
theorem bind_eq_ok_iff {b : β} : (x >>= f) = .ok b ↔ ∃ a, x = .ok a ∧ f a = .ok b := by
  cases x with
  | error failure =>
      constructor
      · intro same
        cases same
      · rintro ⟨a, absent, -⟩
        cases absent
  | ok a =>
      constructor
      · exact fun same => ⟨a, rfl, same⟩
      · rintro ⟨_, same, result⟩
        cases same
        exact result

/-- Every result of the computation has the property. -/
def Returns (x : Except ε α) (Q : α → Prop) : Prop := ∀ a, x = .ok a → Q a

namespace Returns

theorem ok {b : β} (holds : Q b) : Returns (.ok b : Except ε β) Q := by
  intro a same
  cases same
  exact holds

theorem error (failure : ε) : Returns (.error failure : Except ε β) Q := nofun

/-- A computation that goes on with a result has what it has for each result. -/
theorem bind (next : ∀ a, x = .ok a → Returns (f a) Q) : Returns (x >>= f) Q := by
  intro b result
  cases first : x with
  | error failure => rw [first] at result; cases result
  | ok a => rw [first] at result; exact next a first b result

theorem mono {P : β → Prop} {y : Except ε β} (returns : Returns y P) (implies : ∀ b, P b → Q b)
    : Returns y Q :=
  fun b result => implies b (returns b result)

end Returns

end Library
