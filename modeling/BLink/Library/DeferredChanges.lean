import BLink.Library.SortedMap
import Mathlib.Logic.Function.Basic

/-! Maps whose latest changes are published with a delay.
Owners add or remove one record each, and publish the change later. The published map is the
current one but for the changes that are still owed, and an operation on any other key has the
same result on both maps.
-/

namespace Library

universe u v w

variable {K : Type u} [TotalOrd K] {V : Type v} {ι : Type w}

/-- A change of the number of records. -/
inductive Change (K : Type u) (V : Type v) where
  | added (record : K × V)
  | removed (record : K × V)

/-- The key of the record that is added or removed. -/
def Change.key : Change K V → K
  | .added record => record.1
  | .removed record => record.1

/-- The current map has the change, and the published one does not. -/
def Change.Unpublished (current published : SortedMap K V) : Change K V → Prop
  | .added record =>
      current.find? (.ofKey record.1) = some record ∧ published.find? (.ofKey record.1) = none
  | .removed record =>
      current.find? (.ofKey record.1) = none
      ∧ published.find? (.ofKey record.1) = some record

/-- No owed change is about a key that equals the query. -/
def Free (owed : ι → Option (Change K V)) (query : Query K) : Prop :=
  ∀ θ change, owed θ = some change → query.cmp change.key ≠ .eq

/-- The maps find the same for all keys that do not equal the query. -/
def AgreeOff (query : Query K) (map map' : SortedMap K V) : Prop :=
  ∀ key, query.cmp key ≠ .eq → map'.find? (.ofKey key) = map.find? (.ofKey key)

/-- The published map lacks exactly the owed changes, which are about different keys. -/
structure Lags (owed : ι → Option (Change K V)) (current published : SortedMap K V)
    : Prop where
  unpublished : ∀ θ change, owed θ = some change → change.Unpublished current published
  apart
    : ∀ θ other change change',
        owed θ = some change → owed other = some change'
        → compare change.key change'.key = .eq → θ = other
  same : ∀ key, Free owed (.ofKey key) → published.find? (.ofKey key) = current.find? (.ofKey key)

variable {owed : ι → Option (Change K V)} {current current' published published' : SortedMap K V}
  {query : Query K} {change : Change K V} {θ : ι}

/-- Whether an owed change is published depends on what the maps find for its key. -/
theorem Change.Unpublished.congr (unpublished : change.Unpublished current published)
    (now : current'.find? (.ofKey change.key) = current.find? (.ofKey change.key))
    (seen : published'.find? (.ofKey change.key) = published.find? (.ofKey change.key))
    : change.Unpublished current' published' := by
  cases change with
  | added record | removed record => exact ⟨now.trans unpublished.1, seen.trans unpublished.2⟩

namespace AgreeOff

theorem insert (map : SortedMap K V) (key : K) (value : V)
    : AgreeOff (.ofKey key) map (map.insert key value) := by
  intro other differs
  refine map.find?_insert_other value (fun equal => differs ?_)
  rw [Query.ofKey_cmp] at equal ⊢
  exact Std.OrientedCmp.eq_symm equal

theorem erase (map : SortedMap K V) (query : Query K) : AgreeOff query map (map.erase query) :=
  fun _ differs => map.find?_erase_other differs

theorem modify (map : SortedMap K V) (query : Query K) (write : V → V)
    : AgreeOff query map (map.modify query write) :=
  fun _ differs => map.find?_modify_other write differs

end AgreeOff

namespace Lags

/-- Without owed changes the maps are the same. -/
theorem refl (map : SortedMap K V) : Lags (fun _ : ι => none) map map where
  unpublished _ _ owes := by cases owes
  apart _ _ _ _ owes := by cases owes
  same _ _ := rfl

theorem eq_of_settled (lags : Lags owed current published) (settled : ∀ θ, owed θ = none)
    : published = current := by
  refine SortedMap.ext_find? (fun key => lags.same key ?_)
  intro θ change owes
  rw [settled θ] at owes
  cases owes

/-- A lookup that meets no owed change has the same result on both maps. -/
theorem find?_eq (lags : Lags owed current published) (free : Free owed query)
    : published.find? query = current.find? query := by
  have same {record : K × V} (equal : query.cmp record.1 = .eq)
      : published.find? query = current.find? query := by
    rw [Query.eq_ofKey equal] at free ⊢
    exact lags.same record.1 free
  cases now : current.find? query with
  | some record => exact (same (SortedMap.find?_eq_some.mp now).2).trans now
  | none =>
      cases seen : published.find? query with
      | none => rfl
      | some record =>
          rw [same (SortedMap.find?_eq_some.mp seen).2, now] at seen
          cases seen

/-- An operation that meets no owed change does the same to both maps. -/
theorem both (lags : Lags owed current published) (free : Free owed query)
    (now : AgreeOff query current current') (seen : AgreeOff query published published')
    (on
      : ∀ key, query.cmp key = .eq
        → published'.find? (.ofKey key) = current'.find? (.ofKey key))
    : Lags owed current' published' where
  unpublished θ change owes :=
    (lags.unpublished θ change owes).congr (now _ (free θ change owes))
      (seen _ (free θ change owes))
  apart := lags.apart
  same := by
    intro key freeKey
    by_cases equal : query.cmp key = .eq
    · exact on key equal
    · rw [seen key equal, now key equal]
      exact lags.same key freeKey

variable [DecidableEq ι]

/-- A new change of the current map is owed until it is published. -/
theorem defer (lags : Lags owed current published) (free : Free owed (.ofKey change.key))
    (settled : owed θ = none) (now : AgreeOff (.ofKey change.key) current current')
    (unpublished : change.Unpublished current' published)
    : Lags (Function.update owed θ (some change)) current' published where
  unpublished other change' owes := by
    by_cases mine : other = θ
    · subst mine
      rw [Function.update_self] at owes
      cases owes
      exact unpublished
    · rw [Function.update_of_ne mine] at owes
      exact (lags.unpublished other change' owes).congr (now _ (free other change' owes)) rfl
  apart := by
    intro first second change₁ change₂ owes also equal
    by_cases isFirst : first = θ <;> by_cases isSecond : second = θ
    · rw [isFirst, isSecond]
    · subst isFirst
      rw [Function.update_self] at owes
      rw [Function.update_of_ne isSecond] at also
      cases owes
      exact absurd equal (free second change₂ also)
    · subst isSecond
      rw [Function.update_self] at also
      rw [Function.update_of_ne isFirst] at owes
      cases also
      exact absurd (Std.OrientedCmp.eq_symm equal) (free first change₁ owes)
    · rw [Function.update_of_ne isFirst] at owes
      rw [Function.update_of_ne isSecond] at also
      exact lags.apart first second change₁ change₂ owes also equal
  same := by
    intro key freeKey
    have differs : compare key change.key ≠ .eq :=
      freeKey θ change (Function.update_self ..)
    rw [now key (fun equal => differs (Std.OrientedCmp.eq_symm equal))]
    refine lags.same key (fun other change' owes => ?_)
    refine freeKey other change' ?_
    rw [Function.update_of_ne, owes]
    intro mine
    rw [mine, settled] at owes
    cases owes

/-- A published change is no longer owed. -/
theorem publish (lags : Lags owed current published) (owes : owed θ = some change)
    (seen : AgreeOff (.ofKey change.key) published published')
    (on : published'.find? (.ofKey change.key) = current.find? (.ofKey change.key))
    : Lags (Function.update owed θ none) current published' where
  unpublished other change' owesToo := by
    have others : other ≠ θ := by
      intro mine
      rw [mine, Function.update_self] at owesToo
      cases owesToo
    rw [Function.update_of_ne others] at owesToo
    refine (lags.unpublished other change' owesToo).congr rfl (seen _ (fun equal => others ?_))
    exact (lags.apart θ other change change' owes owesToo equal).symm
  apart := by
    intro first second change₁ change₂ owes₁ owes₂ equal
    have kept {other : ι} {change' : Change K V}
        (still : Function.update owed θ none other = some change') : owed other = some change' := by
      by_cases mine : other = θ
      · rw [mine, Function.update_self] at still
        cases still
      · rwa [Function.update_of_ne mine] at still
    exact lags.apart first second change₁ change₂ (kept owes₁) (kept owes₂) equal
  same := by
    intro key freeKey
    by_cases equal : compare change.key key = .eq
    · have equal' : (Query.ofKey change.key).cmp key = .eq := equal
      rwa [Query.eq_ofKey equal'] at on
    · rw [seen key equal]
      refine lags.same key (fun other change' owesToo => ?_)
      by_cases mine : other = θ
      · subst mine
        rw [owes] at owesToo
        cases owesToo
        exact fun same => equal (Std.OrientedCmp.eq_symm same)
      · refine freeKey other change' ?_
        rw [Function.update_of_ne mine, owesToo]

omit [DecidableEq ι] in
/-- The first record is also the first published one, when all owed changes are behind it. -/
theorem first?_eq (lags : Lags owed current published) {record : K × V}
    (first : current.first? = some record)
    (behind : ∀ θ change, owed θ = some change → compare record.1 change.key = .lt)
    : published.first? = some record := by
  obtain ⟨member, least⟩ := SortedMap.first?_eq_some.mp first
  have free : Free owed (.ofKey record.1) := by
    intro θ change owes equal
    rw [Query.ofKey_cmp, behind θ change owes] at equal
    cases equal
  have seen : published.find? (.ofKey record.1) = some record := by
    rw [lags.same record.1 free]
    exact SortedMap.find?_of_mem member
  refine SortedMap.first?_eq_some.mpr ⟨(SortedMap.find?_eq_some.mp seen).1, ?_⟩
  intro other otherMember
  by_cases freeOther : Free owed (.ofKey other.1)
  · have found := (lags.same other.1 freeOther).symm.trans (SortedMap.find?_of_mem otherMember)
    exact least other (SortedMap.find?_eq_some.mp found).1
  · obtain ⟨θ, change, owes, equal⟩ : ∃ θ change,
        owed θ = some change ∧ compare other.1 change.key = .eq := by
      simpa [Free] using freeOther
    rw [compare_congr_right equal]
    exact isLE_of_compare_lt (behind θ change owes)

end Lags

end Library
