import BLink.Alone.Insertions
import BLink.Alone.Repairs
import BLink.Runs.SearchStructure

/-! The structural pass of a removal that runs alone.
It enters only pages that own the key and can lose a record or a separator, after borrowing
or merging where needed.
-/

namespace BLink

open Library

variable {K V : Type} [TotalOrd K]

variable {N : Nat} {t t' : Tree K V} {shape : Shape} {levels : Levels PageId} {l : Nat}
  {p : PageId} {key : Query K} {passes : Nat}

/-- The removal is complete, and shrinks the root as long as it has no separators: by
induction on the height.
-/
theorem finishes_shrinkRoot_done (inv : Inv N t shape) (removed : Option V)
    : Finishes N passes t (.shrinkRoot key (some removed)) := by
  induction height : shape.height using Nat.strong_induction_on generalizing t shape with
  | _ n ih =>
      refine .pass rfl (Nat.le_refl _) (fun upgraded => ?_)
      obtain ⟨t', pc', result, removes⟩ := shrinkRoot_ok inv key (some removed) true
      refine ⟨t', pc', result, ?_⟩
      cases removes with
      | rootStays => exact ⟨rfl, .done _⟩
      | rootCollapses collapse =>
          exact ⟨rfl, ih _ (height ▸ collapse.height_lt inv) (collapse.preserves inv) rfl⟩

/-- A removal's pass may enter the page. -/
def CanLose (N : Nat) (t : Tree K V) (p : PageId) : Prop :=
  p = t.root ∧ ¬ t.BareRoot ∨ t.Spares N p

omit [TotalOrd K] in
theorem Relinked.spares (relinked : Relinked t t' shape) (spares : t.Spares N p)
    : t'.Spares N p := by
  rw [Tree.Spares, relinked.kind]
  exact spares

omit [TotalOrd K] in
/-- A page that can lose something has separators. -/
theorem CanLose.separated (canLose : CanLose N t p) (children : List PageId)
    : (t.page p).kind ≠ .internal [] children := by
  intro kind
  cases canLose with
  | inl isRoot =>
      obtain ⟨same, separated⟩ := isRoot
      exact separated ⟨children, same ▸ kind⟩
  | inr spares =>
      rw [Tree.Spares, kind] at spares
      cases spares

section

variable {first second : PageId} {separator boundary : KeyHandle K}
  {whole leftKind rightKind : NodeKind K V} {front back : List (KeyHandle K)}
  {before after : List PageId}

/-- The page that has borrowed from its left sibling can lose something. -/
theorem ShiftBoundary.spares_second
    (shift
      : ShiftBoundary N t t' p first second separator boundary whole leftKind rightKind front
          back before after)
    (inv : Inv N t shape) (member : p ∈ shape.row (l + 1))
    (grows : rightKind.size = (t.page second).kind.size + 1)
    : t'.Spares N second := by
  have inRow : second ∈ shape.row l := inv.child_mem member shift.kind (by simp)
  have enough := (inv.page l second inRow).minimum (inv.ne_root inRow (inv.le_height member))
  rw [Tree.Spares, shift.right, (shift.joins'.least_eq N).2, ← (shift.joins.least_eq N).2, grows]
  exact Nat.lt_succ_of_le enough

/-- The page that has borrowed from its right sibling can lose something. -/
theorem ShiftBoundary.spares_first
    (shift
      : ShiftBoundary N t t' p first second separator boundary whole leftKind rightKind front
          back before after)
    (inv : Inv N t shape) (member : p ∈ shape.row (l + 1))
    (grows : leftKind.size = (t.page first).kind.size + 1)
    : t'.Spares N first := by
  have inRow : first ∈ shape.row l := inv.child_mem member shift.kind (by simp)
  have enough := (inv.page l first inRow).minimum (inv.ne_root inRow (inv.le_height member))
  rw [Tree.Spares, shift.left, (shift.joins'.least_eq N).1, ← (shift.joins.least_eq N).1, grows]
  exact Nat.lt_succ_of_le enough

/-- The survivor of a merge can lose something. -/
theorem MergeSiblings.spares
    (merge : MergeSiblings N t t' p first second separator whole front back before after)
    (inv : Inv N t shape) (three : 3 ≤ N) (member : p ∈ shape.row (l + 1))
    : t'.Spares N second := by
  have enough {child : PageId} (inRow : child ∈ shape.row l)
      : (t.page child).kind.least N ≤ (t.page child).kind.size :=
    (inv.page l child inRow).minimum (inv.ne_root inRow (inv.le_height member))
  rw [Tree.Spares, merge.right]
  refine merge.joins.least_lt three (enough ?_) (enough ?_)
  · exact inv.child_mem member merge.kind (by simp)
  · exact inv.child_mem member merge.kind (by simp)

end

/-- From a page that owns the key and can lose something, the pass removes the record: by
induction on the level of the page.
-/
theorem finishes_removeAttempt (inv : Inv N t shape) (three : 3 ≤ N)
    (ordered : Ordered t shape levels) (owns : OwnsAt t shape l p key)
    (canLose : CanLose N t p)
    : Finishes N 0 t (.removeAttempt key p) := by
  induction l using Nat.strong_induction_on generalizing t shape p with
  | _ l ih =>
      refine .pass rfl (Nat.le_refl _) (fun upgraded => ?_)
      obtain ⟨t', pc', result, removes⟩ :=
        removeAttempt_ok inv three key true (inv.allocated owns.member)
      refine ⟨t', pc', result, ?_⟩
      have goes := removes
      obtain ⟨shape', advance, -⟩ := removes.preserved inv three
      have ordered' := removes.ordered inv three advance.inv ordered
      cases goes with
      | retry blocked =>
          cases blocked rfl l owns with
          | inl low =>
              refine absurd canLose (not_or.mpr ⟨?_, low.2⟩)
              exact fun isRoot => low.1 isRoot.1
          | inr bare =>
              obtain ⟨children, kind⟩ := bare
              exact absurd kind (canLose.separated children)
      | move moves =>
          obtain ⟨m, rfl, inner, ready⟩ := moves.child_of_owns inv owns
          exact ⟨rfl, ih m (Nat.lt_succ_self m) inv ordered inner (.inr ready)⟩
      | missing => exact ⟨rfl, finishes_shrinkRoot_done inv none⟩
      | done => exact ⟨rfl, finishes_shrinkRoot_done advance.inv _⟩
      | @borrowLeft _ _ m first second _ _ _ _ _ _ _ _ _ _ member shift grows covers =>
          obtain rfl := inv.level_unique owns.member member
          have isNew : second ∈ [first, second] := by simp
          have inRow := (shift.replaced inv three member).mem_row inv advance.inv isNew
          exact ⟨rfl, ih m (Nat.lt_succ_self m) advance.inv ordered' ⟨inRow, covers⟩
            (.inr (shift.spares_second inv member grows))⟩
      | @borrowRight _ _ m first second _ _ _ _ _ _ _ _ _ _ member shift grows _ covers =>
          obtain rfl := inv.level_unique owns.member member
          have isNew : first ∈ [first, second] := by simp
          have inRow := (shift.replaced inv three member).mem_row inv advance.inv isNew
          exact ⟨rfl, ih m (Nat.lt_succ_self m) advance.inv ordered' ⟨inRow, covers⟩
            (.inr (shift.spares_first inv member grows))⟩
      | @merge _ _ m _ second _ _ _ _ _ _ _ member merge covers =>
          obtain rfl := inv.level_unique owns.member member
          have inRow := (merge.replaced inv member).mem_row inv advance.inv (p := second) (by simp)
          refine ⟨rfl, finishes_mergeUpgrade advance.inv ordered' advance.ok ?_⟩
          intro t'' relinked inv'' ordered''
          exact ih m (Nat.lt_succ_self m) inv'' ordered'' (OwnsAt.relinked ⟨inRow, covers⟩ relinked)
            (.inr (relinked.spares (merge.spares inv three member)))

/-- The pass from a root with separators, or from a root leaf. -/
theorem finishes_removeRoot (inv : Inv N t shape) (three : 3 ≤ N)
    (ordered : Ordered t shape levels) (separated : ¬ t.BareRoot)
    : Finishes N 1 t (.removeRoot key) := by
  have count : 0 + (Pc.removeRoot key : Pc K V).startsPass.toNat ≤ 1 := Nat.le_refl _
  refine .pass rfl count (fun _ => ⟨t, _, rfl, rfl, ?_⟩)
  exact finishes_removeAttempt inv three ordered (inv.root_owns key) (.inl ⟨rfl, separated⟩)

/-- A root without separators is collapsed first: by induction on the height. -/
theorem finishes_shrinkRoot (inv : Inv N t shape) (three : 3 ≤ N)
    (ordered : Ordered t shape levels)
    : Finishes N 1 t (.shrinkRoot key none) := by
  induction height : shape.height using Nat.strong_induction_on generalizing t shape with
  | _ n ih =>
      refine .pass rfl (Nat.le_refl _) (fun upgraded => ?_)
      obtain ⟨t', pc', result, removes⟩ := shrinkRoot_ok inv key none true
      refine ⟨t', pc', result, ?_⟩
      cases removes with
      | rootStays separated =>
          refine ⟨rfl, finishes_removeRoot inv three ordered ?_⟩
          exact fun bare => separated bare.choose bare.choose_spec
      | rootCollapses collapse =>
          exact ⟨rfl, ih _ (height ▸ collapse.height_lt inv) (collapse.preserves inv)
            (collapse.ordered inv ordered) rfl⟩

/-- The fast path ends the removal, or leaves it to the structural path. -/
theorem finishes_tryRemoveWithoutRebalance (inv : Inv N t shape) (three : 3 ≤ N)
    (ordered : Ordered t shape levels) (owns : OwnsAt t shape 0 p key)
    : Finishes N 1 t (.leafWrite (.tryRemoveWithoutRebalance key) p) := by
  refine .pass rfl (Nat.le_refl _) (fun upgraded => ?_)
  obtain ⟨t', pc', result, writes⟩ :=
    leafWrite_ok inv (.tryRemoveWithoutRebalance key) (inv.allocated owns.member)
  refine ⟨t', pc', result, ?_⟩
  cases writes with
  | retry misses => exact absurd owns misses
  | removeMissing => exact ⟨rfl, .done _⟩
  | removeStructural => exact ⟨rfl, finishes_shrinkRoot inv three ordered⟩
  | removeDone => exact ⟨rfl, .done _⟩

end BLink
