import Mathlib.Order.Basic

/-! Total preorders given by a three-way comparison, and search keys against them.
Two values may compare equal without being the same object, so no antisymmetry is assumed.
-/

namespace Library

universe u v

/-- A type whose `compare` is a total preorder: the contract of a three-way comparison. -/
class TotalOrd (K : Type u) extends Ord K, Std.TransOrd K

instance : TotalOrd Nat where

variable {K : Type u} [TotalOrd K]

-----------------------------------------------------------------------------------------
-- Comparison facts in the two spellings the development uses
-----------------------------------------------------------------------------------------

/-- A comparison is not `lt` exactly when the converse comparison is at most equal. -/
theorem not_lt_iff_isLE {a b : K} : ¬ compare a b = .lt ↔ (compare b a).isLE := by
  rw [Std.OrientedOrd.eq_swap (a := a) (b := b)]
  cases compare b a <;> simp [Ordering.swap, Ordering.isLE]

/-- A strict comparison is in particular at most equal. -/
theorem isLE_of_compare_lt {a b : K} (h : compare a b = .lt) : (compare a b).isLE := by
  simp [h, Ordering.isLE]

/-- Equal keys compare alike against every third key, on the right of the comparison. -/
theorem compare_congr_right {a b c : K} (h : compare b c = .eq) : compare a b = compare a c :=
  Std.TransCmp.congr_right h

/-- Equal keys compare alike against every third key, on the left of the comparison. -/
theorem compare_congr_left {a b c : K} (h : compare a b = .eq) : compare a c = compare b c :=
  Std.TransCmp.congr_left h

-----------------------------------------------------------------------------------------
-- Queries: whatever can be located among the keys
-----------------------------------------------------------------------------------------

/-- A search key for keys in `K`, known only through its comparison with them.
`cmp k` compares the sought key with `k`; it is monotone, and at most one equivalence class
of keys compares equal. Every borrowed form of a key whose order agrees is such a query.
-/
@[ext] structure Query (K : Type u) [TotalOrd K] where
  cmp : K → Ordering
  lt_of_le : ∀ {a b : K}, cmp a = .lt → (compare a b).isLE → cmp b = .lt
  gt_of_le : ∀ {a b : K}, cmp b = .gt → (compare a b).isLE → cmp a = .gt
  eq_of_eq : ∀ {a b : K}, cmp a = .eq → cmp b = .eq → compare a b = .eq

/-- A borrowed key, in a type whose order agrees with the order of the stored keys. -/
def Query.ofBorrow {Q : Type v} [TotalOrd Q] (borrow : K → Q)
    (agree : ∀ a b, compare (borrow a) (borrow b) = compare a b) (key : Q)
    : Query K where
  cmp k := compare key (borrow k)
  lt_of_le h le := Std.TransCmp.lt_of_lt_of_isLE h (by rwa [agree])
  gt_of_le h le := by
    rw [← agree] at le
    exact Std.OrientedCmp.gt_of_lt
      (Std.TransCmp.lt_of_isLE_of_lt le (Std.OrientedCmp.lt_of_gt h))
  eq_of_eq ha hb := by
    rw [← agree]
    exact Std.TransCmp.eq_trans (Std.OrientedCmp.eq_symm ha) hb

/-- A stored key used as its own search key. -/
def Query.ofKey (key : K) : Query K := Query.ofBorrow id (fun _ _ => rfl) key

@[simp] theorem Query.ofKey_cmp (key k : K) : (Query.ofKey key).cmp k = compare key k := rfl

namespace Query

variable {query : Query K} {a b : K}

/-- A query not below `b` is not below anything at most `b`. -/
theorem not_lt_of_le (h : ¬ query.cmp b = .lt) (le : (compare a b).isLE)
    : ¬ query.cmp a = .lt :=
  fun below => h (query.lt_of_le below le)

/-- A query equal to `a` lies below every key above `a`. -/
theorem lt_of_eq_of_lt (h : query.cmp a = .eq) (lt : compare a b = .lt)
    : query.cmp b = .lt := by
  cases hb : query.cmp b with
  | lt => rfl
  | eq => rw [query.eq_of_eq h hb] at lt; cases lt
  | gt => rw [query.gt_of_le hb (isLE_of_compare_lt lt)] at h; cases h

/-- A query equal to `b` lies above every key below `b`. -/
theorem gt_of_lt_of_eq (h : query.cmp b = .eq) (lt : compare a b = .lt)
    : query.cmp a = .gt := by
  cases ha : query.cmp a with
  | gt => rfl
  | eq => rw [query.eq_of_eq ha h] at lt; cases lt
  | lt => rw [query.lt_of_le ha (isLE_of_compare_lt lt)] at h; cases h

/-- Equivalent keys compare alike with a query. -/
theorem cmp_congr (h : compare a b = .eq) : query.cmp a = query.cmp b := by
  have le : (compare a b).isLE := by simp [h, Ordering.isLE]
  have ge : (compare b a).isLE := by simp [Std.OrientedCmp.eq_symm h, Ordering.isLE]
  cases ha : query.cmp a with
  | lt => exact (query.lt_of_le ha le).symm
  | gt => exact (query.gt_of_le ha ge).symm
  | eq =>
      cases hb : query.cmp b with
      | eq => rfl
      | lt => rw [query.lt_of_le hb ge] at ha; cases ha
      | gt => rw [query.gt_of_le hb le] at ha; cases ha

/-- A query that equals a key is the query for that key. -/
theorem eq_ofKey (h : query.cmp a = .eq) : query = .ofKey a := by
  ext b
  rw [ofKey_cmp]
  cases compared : compare a b with
  | lt => exact query.lt_of_eq_of_lt h compared
  | eq => exact (query.cmp_congr compared).symm.trans h
  | gt => exact query.gt_of_lt_of_eq h (Std.OrientedCmp.lt_of_gt compared)

end Query

end Library
