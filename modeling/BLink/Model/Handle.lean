import BLink.Library.TotalOrder

/-! Shared key ownership, and the ways an operation can fail internally. -/

namespace BLink

open Library

/-- Reference-counted ownership of a stored key. Handles with one `id` share one key
allocation; the order and the equality of handles are those of the keys they own.
-/
structure KeyHandle (K : Type) where
  id : Nat
  key : K
  deriving DecidableEq, Repr

namespace KeyHandle

variable {K : Type} [TotalOrd K]

instance : Preorder (KeyHandle K) where
  le a b := (compare a.key b.key).isLE
  lt a b := compare a.key b.key = .lt
  le_refl a := by simp [Std.ReflOrd.compare_self, Ordering.isLE]
  le_trans _ _ _ := Std.TransCmp.isLE_trans
  lt_iff_le_not_ge a b := by
    refine ⟨fun lt => ⟨isLE_of_compare_lt lt, Std.OrientedCmp.not_isLE_of_lt lt⟩, ?_⟩
    exact fun both => Std.OrientedCmp.lt_of_not_isLE both.2

theorem not_lt_iff {a b : KeyHandle K} : ¬ a < b ↔ b ≤ a := not_lt_iff_isLE

end KeyHandle

/-- An internal failure point, with the message the source gives it: a failed assertion, a
missing value that was expected, an arm marked unreachable, a failed debug assertion, an
index outside a slice, or a loop inside one latched section that runs out of its budget.
-/
inductive Panic where
  | assertion (message : String)
  | expected (message : String)
  | unreachable (message : String)
  | debugAssertion
  | indexOutOfBounds
  | diverged
  deriving DecidableEq, Repr

/-- `debug_assert!`. -/
def debugAssert (condition : Prop) [Decidable condition] : Except Panic Unit :=
  if condition then .ok () else .error .debugAssertion

/-- `Option::expect`. -/
def expect {α : Type} (message : String) : Option α → Except Panic α
  | some value => .ok value
  | none => .error (.expected message)

section

variable {α β : Type}

@[simp] theorem ok_bind (value : α) (next : α → Except Panic β)
    : (Except.ok value >>= next) = next value := rfl

@[simp] theorem ok_map (value : α) (f : α → β)
    : f <$> (Except.ok value : Except Panic α) = .ok (f value) := rfl

@[simp] theorem pure_eq_ok (value : α) : (pure value : Except Panic α) = .ok value := rfl

@[simp] theorem debugAssert_of {condition : Prop} [Decidable condition] (holds : condition)
    : debugAssert condition = .ok () := by
  simp [debugAssert, holds]

@[simp] theorem expect_some (message : String) (value : α)
    : expect message (some value) = .ok value := rfl

end

end BLink
