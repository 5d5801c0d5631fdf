import BLink.Alone.Completion
import BLink.Alone.Traversal

/-! The structural pass of an insertion that runs alone.
It enters only pages that own the key and have room; it goes down from each of them, so that
it neither meets a stale page nor has to give up.
-/

namespace BLink

open Library

variable {K V : Type} [TotalOrd K]

variable {N : Nat} {t t' : Tree K V} {shape : Shape} {l : Nat} {p next : PageId}

/-- A pass that stands at the owner of its key goes down. -/
theorem Moves.child_of_owns {ready : PageId → Prop} {key : Query K}
    (moves : Moves t shape ready key p next) (inv : Inv N t shape) (owns : OwnsAt t shape l p key)
    : ∃ m, l = m + 1 ∧ OwnsAt t shape m next key ∧ ready next := by
  cases moves with
  | forward retired =>
      rw [(inv.active owns.member).2] at retired
      cases retired
  | right _ _ _ _ beyond => exact absurd owns.covers beyond.not_covers
  | @child m _ here inner isReady =>
      exact ⟨m, inv.level_unique owns.member here.member, inner, isReady⟩

/-- Repairs of links leave every page with its key range. -/
theorem OwnsAt.relinked {key : Query K} (owns : OwnsAt t shape l p key)
    (relinked : Relinked t t' shape)
    : OwnsAt t' shape l p key where
  member := owns.member
  covers := by
    rw [relinked.framed.low, relinked.framed.high]
    exact owns.covers

section

variable {key : K} {value : V} {newRight : PageId} {oldSuccessor target : Option PageId}
  {held : List PageId} {passes : Nat}

/-- The repair after a split is one section, and changes nothing that a pass depends on. -/
theorem finishes_repairSplitBacklink (inv : Inv N t shape) (allocated : newRight < t.pages)
    (resumes
      : ∀ t',
          Relinked t t' shape → Inv N t' shape
          → Finishes N passes t' (insertResume key value target))
    : Finishes N passes t (.repairSplitBacklink key value newRight oldSuccessor target held) := by
  have keeps (pc' : Pc K V)
      : (Pc.repairSplitBacklink key value newRight oldSuccessor target held).retries pc' = false :=
    rfl
  refine .pass rfl (Nat.le_refl _) (fun upgraded => ?_)
  obtain ⟨t', pc', result, inserts⟩ :=
    repairSplitBacklink_ok inv key value oldSuccessor target held true allocated
  refine ⟨t', pc', result, keeps pc', ?_⟩
  cases inserts with
  | repairSkipped => exact resumes t (.refl inv) inv
  | repaired member points inRow resolves =>
      have relinked := Relinked.of_link inv member points resolves
      exact resumes _ relinked (relinked.preserves inv)

/-- From a page with room that owns the key, the pass inserts the record: by induction on the
level of the page.
-/
theorem finishes_insertAttempt (inv : Inv N t shape) (three : 3 ≤ N)
    (owns : OwnsAt t shape l p (.ofKey key)) (room : (t.page p).kind.size < N)
    : Finishes N 0 t (.insertAttempt key value p) := by
  induction l using Nat.strong_induction_on generalizing t shape p with
  | _ l ih =>
      refine .pass rfl (Nat.le_refl _) (fun upgraded => ?_)
      obtain ⟨t', pc', result, inserts⟩ :=
        insertAttempt_ok inv three key value true (inv.allocated owns.member)
      refine ⟨t', pc', result, ?_⟩
      cases inserts with
      | retry blocked => exact absurd (blocked rfl l owns) (Nat.ne_of_lt room)
      | move moves =>
          obtain ⟨m, rfl, inner, ready⟩ := moves.child_of_owns inv owns
          exact ⟨rfl, ih m (Nat.lt_succ_self m) inv inner ready⟩
      | done => exact ⟨rfl, .done _⟩
      | @split _ _ _ c target m _ separator leftKind rightKind _ _ _ _ member split goes covers =>
          obtain rfl := inv.level_unique owns.member member
          have replaced := split.replaced inv three member
          obtain ⟨_, _, _, inv', -⟩ := replaced.preserves inv
          have childMember : c ∈ shape.row m := inv.child_mem member split.kind (by simp)
          obtain ⟨leftRoom, rightRoom⟩ :=
            split.joins.sizes_lt three (inv.page m c childMember).full split.leftLeast
              split.rightLeast
          refine ⟨rfl, finishes_repairSplitBacklink inv' ?_ ?_⟩
          · rw [split.pages]
            exact Nat.lt_succ_self _
          · intro t'' relinked inv''
            have isNew : target ∈ [c, t.pages] := by simpa using goes
            have inRow := replaced.mem_row inv inv' isNew
            refine ih m (Nat.lt_succ_self m) inv'' (OwnsAt.relinked ⟨inRow, covers⟩ relinked) ?_
            rw [relinked.kind]
            cases goes with
            | inl same => rwa [same, split.left]
            | inr same => rwa [same, split.right]

/-- The pass from a root with room. -/
theorem finishes_insertRoot (inv : Inv N t shape) (three : 3 ≤ N)
    (room : (t.page t.root).kind.size < N)
    : Finishes N 1 t (.insertRoot key value) := by
  have count : 0 + (Pc.insertRoot key value).startsPass.toNat ≤ 1 := Nat.le_refl _
  refine .pass rfl count (fun _ => ⟨t, _, rfl, rfl, ?_⟩)
  exact finishes_insertAttempt inv three (inv.root_owns (.ofKey key)) room

/-- A full root is split first, and then has one separator. -/
theorem finishes_splitRootIfFull (inv : Inv N t shape) (three : 3 ≤ N)
    : Finishes N 1 t (.splitRootIfFull key value) := by
  refine .pass rfl (Nat.le_refl _) (fun upgraded => ?_)
  obtain ⟨t', pc', result, inserts⟩ := splitRootIfFull_ok inv three key value true
  refine ⟨t', pc', result, ?_⟩
  cases inserts with
  | rootStays room => exact ⟨rfl, finishes_insertRoot inv three room⟩
  | @rootSplits _ _ middle _ separator leftKind rightKind grow split =>
      have member : t.pages ∈ (shape.grow t.pages).row (shape.height + 1) := by
        rw [Shape.grow_top]
        exact List.mem_singleton_self _
      obtain ⟨_, _, _, inv', -⟩ :=
        (split.replaced (grow.preserves inv) three member).preserves (grow.preserves inv)
      refine ⟨rfl, finishes_repairSplitBacklink inv' ?_ ?_⟩
      · rw [split.pages, grow.pages]
        exact Nat.lt_succ_self _
      · intro t'' relinked inv''
        refine finishes_insertRoot inv'' three ?_
        rw [relinked.root, relinked.kind, split.root, grow.root, split.parent]
        show 1 < N
        omega

/-- The fast path ends the insertion, or leaves it to the structural path. -/
theorem finishes_tryInsertWithoutSplit (inv : Inv N t shape) (three : 3 ≤ N)
    (owns : OwnsAt t shape 0 p (.ofKey key))
    : Finishes N 1 t (.leafWrite (.tryInsertWithoutSplit key value) p) := by
  refine .pass rfl (Nat.le_refl _) (fun upgraded => ?_)
  obtain ⟨t', pc', result, writes⟩ :=
    leafWrite_ok inv (.tryInsertWithoutSplit key value) (inv.allocated owns.member)
  refine ⟨t', pc', result, ?_⟩
  cases writes with
  | retry misses => exact absurd owns misses
  | insertFull => exact ⟨rfl, finishes_splitRootIfFull inv three⟩
  | insertDone => exact ⟨rfl, .done _⟩

end

end BLink
