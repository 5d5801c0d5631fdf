import BLink.Sequential.Insertions

/-! Removals that run alone: they come to an end, and on every level they touch only the
owner of the key, the sibling that it borrows from or is merged with, and the right link of
the left neighbour of merged pages.
-/

namespace BLink

open Library

variable {K V : Type} [TotalOrd K]

variable {N : Nat} {post : List (Passage K V) → Tree K V → Response K V → Prop}
  {t t₁ t₂ t' t'' : Tree K V}
  {shape shape₁ shape' : Shape} {l : Nat} {p first second next : PageId} {call : Call K V}
  {map : SortedMap K V} {key : Query K} {path earlier : List (Passage K V)}

-----------------------------------------------------------------------------------------
-- The repair after a merge
-----------------------------------------------------------------------------------------

section

variable {repair : MergeRepair} {target cursor : PageId} {held : List PageId}

/-- What the repair after a merge changes outside the survivor: the right link of its
predecessor.
-/
def MergeRepair.Repaired (repair : MergeRepair) (t t' : Tree K V) : Prop :=
  ∀ s,
    s ≠ repair.survivor
    → t'.page s = t.page s
      ∨ repair.FoundAt t s
        ∧ t'.page s = { t.page s with right := some repair.survivor }

/-- The repair found its predecessor, whose right link leads to the retired page. -/
theorem concludes_mergeWalk (three : 3 ≤ N)
    (mid : MidPass N (.remove key) map t shape (.mergeWalk key repair cursor target held))
    (resumes
      : ∀ earlier t',
          Relinked t t' shape → MidPass N (.remove key) map t' shape (.removeAttempt key target)
          → repair.Repaired t t'
          → Concludes N (fun path => post (earlier ++ path)) t' (.removeAttempt key target))
    : Concludes N post t (.mergeWalk key repair cursor target held) := by
  obtain ⟨survives, active, points⟩ := mid.prompt
  obtain ⟨repairOk, allocated⟩ := mid.ok
  refine .step rfl (fun upgraded => ?_)
  obtain ⟨t', pc', result, repairs⟩ :=
    mergeWalk_section mid.inv held upgraded repairOk allocated
  refine ⟨t', pc', result, fun weak => ?_⟩
  obtain ⟨shape', mid'⟩ := mid.step three nofun rfl weak result
  cases repairs with
  | back retired =>
      rw [active.2] at retired
      cases retired
  | ends member last =>
      rw [points] at last
      cases last
  | onward member points' settled =>
      obtain rfl := Option.some.inj (points.symm.trans points')
      rw [repairOk.retired] at settled
      cases settled
  | compacted member points' skips unfinished =>
      obtain rfl := Option.some.inj (points.symm.trans points')
      exact absurd survives (unfinished repairOk.retired)
  | completed member points' resolves =>
      have relinked := Relinked.of_link mid.inv member points' resolves
      obtain rfl := mid'.inv.shape_unique (relinked.preserves mid.inv)
      refine resumes [_] _ relinked mid' (fun s notSurvivor => ?_)
      rw [Tree.link, Tree.setPrevious, Tree.setPage_page, if_neg notSurvivor, Tree.setRight,
        Tree.setPage_page]
      split_ifs with here
      · subst here
        exact .inr ⟨⟨active, points⟩, rfl⟩
      · exact .inl rfl

theorem concludes_mergeClear (three : 3 ≤ N)
    (mid : MidPass N (.remove key) map t shape (.mergeClear key repair target held))
    (resumes
      : ∀ earlier t',
          Relinked t t' shape → MidPass N (.remove key) map t' shape (.removeAttempt key target)
          → repair.Repaired t t'
          → Concludes N (fun path => post (earlier ++ path)) t' (.removeAttempt key target))
    : Concludes N post t (.mergeClear key repair target held) := by
  have relinked : Relinked t (t.setPrevious repair.survivor none) shape :=
    Relinked.of_setPrevious (by simp) mid.inv.previous
  have passed (upgraded : Bool)
      : t.latchedSection N true upgraded (.mergeClear key repair target held)
        = .ok (t.setPrevious repair.survivor none, .removeAttempt key target) :=
    rfl
  refine .step rfl (fun upgraded => ⟨_, _, passed upgraded, fun weak => ?_⟩)
  have mid' := mid.advance three nofun rfl weak (passed upgraded) (relinked.preserves mid.inv)
  refine resumes [_] _ relinked mid' (fun s notSurvivor => .inl ?_)
  rw [Tree.setPrevious, Tree.setPage_page, if_neg notSurvivor]

/-- The repair after a merge gives the survivor's predecessor its right link. -/
theorem concludes_mergeUpgrade (three : 3 ≤ N)
    (mid : MidPass N (.remove key) map t shape (.mergeUpgrade key repair target held))
    (resumes
      : ∀ earlier t',
          Relinked t t' shape → MidPass N (.remove key) map t' shape (.removeAttempt key target)
          → repair.Repaired t t'
          → Concludes N (fun path => post (earlier ++ path)) t' (.removeAttempt key target))
    : Concludes N post t (.mergeUpgrade key repair target held) := by
  refine .step rfl (fun upgraded => ?_)
  obtain ⟨t', pc', result, repairs⟩
      : ∃ t' pc',
          t.latchedSection N true upgraded (.mergeUpgrade key repair target held) = .ok (t', pc')
          ∧ Repairs t shape upgraded (.mergeUpgrade key repair target held) t' pc' :=
    ⟨_, _, rfl, mergeUpgrade_ok t shape key repair target held upgraded⟩
  refine ⟨t', pc', result, fun weak => ?_⟩
  obtain ⟨shape', mid'⟩ := mid.step three nofun rfl weak result
  cases repairs with
  | upgraded =>
      obtain rfl := mid'.inv.shape_unique mid.inv
      exact concludes_mergeWalk three mid' (fun earlier => resumes (_ :: earlier))
  | lost =>
      obtain rfl := mid'.inv.shape_unique mid.inv
      exact concludes_mergeClear three mid' (fun earlier => resumes (_ :: earlier))

end

section

variable {separator boundary : KeyHandle K} {whole leftKind rightKind : NodeKind K V}
  {front back : List (KeyHandle K)} {before after : List PageId}

/-- A borrowing is one step of a pass. -/
theorem ShiftBoundary.passesDown {upgraded : Bool}
    (shift
      : ShiftBoundary N t t₁ p first second separator boundary whole leftKind rightKind front
          back before after)
    (three : 3 ≤ N) (inv : Inv N t shape) (owns : OwnsAt t shape (l + 1) p key)
    (inv₁ : Inv N t₁ shape₁) (isNew : next ∈ [first, second]) (contains : t₁.Contains key next)
    (passed : ⟨(t, .removeAttempt key p), upgraded, (t₁, .removeAttempt key next)⟩ ∈ path)
    : PassesDown N (.remove key) key path t shape t₁ shape₁ l p [first, second] := by
  have member := owns.member
  have replaced := shift.replaced inv three member
  obtain ⟨start, rest, row, preserved, -⟩ := replaced.preserves inv
  obtain rfl := inv₁.shape_unique preserved
  refine replaced.passesDown inv owns row inv₁ (.refl t₁ _) isNew contains (fun t' same => ?_)
  obtain ⟨owner, isOld, owned⟩ := replaced.exists_owner inv inv₁ isNew contains
  refine .borrow rfl passed (fun q _ => rfl) owns.covers shift ⟨start, rest, row⟩ ?_
    (fun q inRow notFirst notSecond => ?_)
  · simp only [List.mem_cons, List.not_mem_nil, or_false] at isOld
    cases isOld with
    | inl isFirst => exact .inl (isFirst ▸ owned)
    | inr isSecond => exact .inr (isSecond ▸ owned)
  · have notParent : q ≠ p := inv.ne_of_level inRow member (by omega)
    rw [same q inRow (by simp [notFirst, notSecond]), shift.other q notParent notFirst notSecond]

/-- A merge, with its repair, is one step of a pass. -/
theorem MergeSiblings.passesDown {repair : MergeRepair} {held : List PageId} {upgraded : Bool}
    (merge : MergeSiblings N t t₁ p first second separator whole front back before after)
    (inv : Inv N t shape) (owns : OwnsAt t shape (l + 1) p key) (inv₁ : Inv N t₁ shape₁)
    (relinked : Relinked t₁ t₂ shape₁) (contains : t₁.Contains key second)
    (retired : repair.retired = first) (survivor : repair.survivor = second)
    (repaired : repair.Repaired t₁ t₂)
    (passed
      : ⟨(t, .removeAttempt key p), upgraded, (t₁, .mergeUpgrade key repair second held)⟩ ∈ path)
    : PassesDown N (.remove key) key path t shape t₂ shape₁ l p [first, second] := by
  have member := owns.member
  have replaced := merge.replaced inv member
  have firstMember : first ∈ shape.row l := inv.child_mem member merge.kind (by simp)
  obtain ⟨start, rest, row, preserved, -⟩ := replaced.preserves inv
  obtain rfl := inv₁.shape_unique preserved
  -- A page whose right link is repaired is the left neighbour of the retired page.
  have neighbour {s : PageId} (found : repair.FoundAt t₁ s) (notSecond : s ≠ second)
      : s ∈ shape.row l ∧ s ≠ first ∧ Neighbours (shape.row l) s first := by
    obtain ⟨active, points⟩ := found
    have notFirst : s ≠ first := by
      intro isFirst
      have settled := active.2
      rw [isFirst, merge.forward_first] at settled
      cases settled
    obtain ⟨wasActive, -⟩ := replaced.was_active inv active (by simpa using notSecond)
    rw [(replaced.links_eq inv wasActive (by simp [notFirst, notSecond])).1, retired] at points
    obtain ⟨m, inRow, firstRow, -⟩ :=
      inv.successor_of_right wasActive points (.settled (inv.active firstMember).2)
    obtain rfl := inv.level_unique firstRow firstMember
    exact ⟨inRow, notFirst, inv.neighbours inRow points (inv.active firstMember).2⟩
  have repairs : LinksRepaired t₁ t₂ (start ++ ([second] ++ rest)) := by
    refine ⟨relinked.pages, fun q => ?_, fun q outside => ?_⟩
    · rw [relinked.framed.low, relinked.framed.high]
      exact ⟨rfl, rfl⟩
    · simp only [List.mem_append, List.mem_singleton, not_or] at outside
      obtain ⟨notStart, notSecond, notRest⟩ := outside
      cases repaired q (survivor ▸ notSecond) with
      | inl same => exact same
      | inr changed =>
          obtain ⟨inRow, notFirst, -⟩ := neighbour changed.1 notSecond
          rw [row] at inRow
          simp only [List.mem_append, List.mem_cons, List.not_mem_nil, or_false] at inRow
          rcases inRow with inStart | (isFirst | isSecond) | inRest
          · exact absurd inStart notStart
          · exact absurd isFirst notFirst
          · exact absurd isSecond notSecond
          · exact absurd inRest notRest
  have contains₂ : t₂.Contains key second := by
    rw [Tree.Contains, relinked.framed.low, relinked.framed.high]
    exact contains
  have isNew : second ∈ [second] := List.mem_singleton_self _
  refine replaced.passesDown inv owns row (relinked.preserves inv₁) repairs isNew contains₂ ?_
  intro t' same
  obtain ⟨owner, isOld, owned⟩ := replaced.exists_owner inv inv₁ isNew contains
  refine .merge rfl passed (fun q _ => rfl) owns.covers merge ⟨start, rest, row⟩ ?_
    (fun q inRow notFirst notSecond => ?_)
  · simp only [List.mem_cons, List.not_mem_nil, or_false] at isOld
    cases isOld with
    | inl isFirst => exact .inl (isFirst ▸ owned)
    | inr isSecond => exact .inr (isSecond ▸ owned)
  · have notParent : q ≠ p := inv.ne_of_level inRow member (by omega)
    have kept := merge.other q notParent notFirst notSecond
    rw [same q inRow (by simp [notFirst, notSecond])]
    cases repaired q (survivor ▸ notSecond) with
    | inl isSame => exact .inl (isSame.trans kept)
    | inr changed =>
        obtain ⟨found, page⟩ := changed
        rw [kept, survivor] at page
        exact .inr ⟨(neighbour found notSecond).2.2, page⟩

end

-----------------------------------------------------------------------------------------
-- Whole removals
-----------------------------------------------------------------------------------------

/-- From a page that owns the key and can lose something, the pass removes the record: by
induction on the level of the page.
-/
theorem concludes_removeAttempt (three : 3 ≤ N)
    (mid : MidPass N (.remove key) map t shape (.removeAttempt key p))
    (owns : OwnsAt t shape l p key) (canLose : CanLose N t p)
    (resumes
      : ∀ earlier t' shape' removed,
          MidPass N (.remove key) map t' shape' (.shrinkRoot key (some removed))
          → TouchesBelow N (.remove key) key earlier t shape t' shape' l
          → Concludes N (fun path => post (earlier ++ path)) t' (.shrinkRoot key (some removed)))
    : Concludes N post t (.removeAttempt key p) := by
  induction l using Nat.strong_induction_on generalizing t shape p post with
  | _ l ih =>
      have inv := mid.inv
      refine .step rfl (fun upgraded => ?_)
      obtain ⟨t₁, pc₁, result, removes⟩ :=
        removeAttempt_ok inv three key true (inv.allocated owns.member)
      refine ⟨t₁, pc₁, result, fun weak => ?_⟩
      obtain ⟨shape₁, mid₁⟩ := mid.step three nofun rfl weak result
      cases removes with
      | retry blocked =>
          cases blocked rfl l owns with
          | inl low =>
              refine absurd canLose (not_or.mpr ⟨?_, low.2⟩)
              exact fun isRoot => low.1 isRoot.1
          | inr bare =>
              obtain ⟨children, kind⟩ := bare
              exact absurd kind (canLose.separated children)
      | move moves =>
          obtain ⟨m, rfl, inner, ready⟩ := moves.child_of_owns inv owns
          obtain rfl := mid₁.inv.shape_unique inv
          refine ih m (Nat.lt_succ_self m) mid₁ inner (.inr ready) ?_
          intro earlier t' shape' removed mid' touches
          exact resumes (_ :: earlier) t' shape' removed mid'
            ((passesDown_of_move inv owns inner).compose inv touches (List.subset_cons_self _ _))
      | missing leaf =>
          obtain rfl := inv.level_unique owns.member leaf.member
          obtain rfl := mid₁.inv.shape_unique inv
          exact resumes [_] t _ none mid₁ (.refl t _)
      | done leaf _ updated =>
          obtain rfl := inv.level_unique owns.member leaf.member
          obtain rfl := mid₁.inv.shape_unique (updated.preserves inv leaf.member)
          exact resumes [_] t₁ _ _ mid₁ (updated.touchesBelow owns inv)
      | @borrowLeft _ _ m first second _ _ _ _ _ _ _ _ _ _ member shift grows covers =>
          obtain rfl := inv.level_unique owns.member member
          have isNew : second ∈ [first, second] := by simp
          have inRow := (shift.replaced inv three member).mem_row inv mid₁.inv isNew
          refine ih m (Nat.lt_succ_self m) mid₁ ⟨inRow, covers⟩ ?_ ?_
          · exact .inr (shift.spares_second inv member grows)
          · intro earlier t' shape' removed mid' touches
            refine resumes (_ :: earlier) t' shape' removed mid' ?_
            exact (shift.passesDown three inv owns mid₁.inv isNew covers
              List.mem_cons_self).compose inv touches (List.subset_cons_self _ _)
      | @borrowRight _ _ m first second _ _ _ _ _ _ _ _ _ _ member shift grows _ covers =>
          obtain rfl := inv.level_unique owns.member member
          have isNew : first ∈ [first, second] := by simp
          have inRow := (shift.replaced inv three member).mem_row inv mid₁.inv isNew
          refine ih m (Nat.lt_succ_self m) mid₁ ⟨inRow, covers⟩ ?_ ?_
          · exact .inr (shift.spares_first inv member grows)
          · intro earlier t' shape' removed mid' touches
            refine resumes (_ :: earlier) t' shape' removed mid' ?_
            exact (shift.passesDown three inv owns mid₁.inv isNew covers
              List.mem_cons_self).compose inv touches (List.subset_cons_self _ _)
      | @merge _ _ m _ second _ _ _ _ _ _ _ member merge covers =>
          obtain rfl := inv.level_unique owns.member member
          have isNew : second ∈ [second] := List.mem_singleton_self second
          have inRow := (merge.replaced inv member).mem_row inv mid₁.inv isNew
          refine concludes_mergeUpgrade three mid₁ (fun earlier t₂ relinked mid₂ repaired => ?_)
          refine ih m (Nat.lt_succ_self m) mid₂ (OwnsAt.relinked ⟨inRow, covers⟩ relinked) ?_ ?_
          · exact .inr (relinked.spares (merge.spares inv three member))
          · intro later t' shape' removed mid' touches
            simp only [← List.append_assoc]
            refine resumes (_ :: (earlier ++ later)) t' shape' removed mid' ?_
            exact (merge.passesDown inv owns mid₁.inv relinked covers rfl rfl repaired
              List.mem_cons_self).compose inv touches
                (List.subset_cons_of_subset _ (List.subset_append_right _ _))

/-- A collapse of the root changes only pages that have been treated or are new. -/
theorem CollapseRoot.treats {child : PageId} (collapse : CollapseRoot t' t'' child)
    (inv : Inv N t shape) (inv' : Inv N t' shape') (lower : shape'.height ≤ shape.height)
    (treats : Treats N call key path t shape t' shape')
    : Treats N call key path t shape t'' shape'.collapse := by
  obtain ⟨n, height, row, low, high, -⟩ := collapse.child_alone inv'
  have childMember : child ∈ shape'.row n := row ▸ List.mem_singleton_self child
  have childOwns : OwnsAt t' shape' n child key := by
    refine ⟨childMember, ?_⟩
    rw [low, high]
    exact ⟨nofun, nofun⟩
  -- A page that owns the key, and stands in the former tree, has been treated there.
  have treated {q : PageId} {m k : Nat} {free : List PageId} (owns : OwnsAt t' shape' k q key)
      (inRow : q ∈ shape.row m) (touched : Treated N call key path t shape t' shape' m free)
      : q ∈ free := by
    have le : k ≤ shape.height := (inv'.le_height owns.member).trans lower
    obtain ⟨free', touched'⟩ := treats.levels k le
    have old := (touched'.row q owns.member).resolve_right (Nat.not_le.mpr (inv.allocated inRow))
    obtain rfl := inv.level_unique inRow old
    exact (touched.owner q owns).resolve_right (Nat.not_le.mpr (inv.allocated inRow))
  have remains {q : PageId} {m : Nat} (here : q ∈ shape'.collapse.row m)
      : q ∈ shape'.row m ∧ m ≠ shape'.height := by
    have notTop : m ≠ shape'.height := by
      intro top
      rw [top, Shape.collapse_top] at here
      cases here
    rw [Shape.collapse_of_ne _ notTop] at here
    exact ⟨here, notTop⟩
  refine ⟨collapse.pages ▸ treats.pages, fun q target forwards => ?_, fun m le => ?_⟩
  · have notOwner {k : Nat} (owns : OwnsAt t' shape' k q key) : False := by
      obtain ⟨free', touched⟩ := treats.levels k ((inv'.le_height owns.member).trans lower)
      have old := (touched.row q owns.member).resolve_right
        (Nat.not_le.mpr (inv.forwards q target forwards).1)
      rw [(inv.active old).2] at forwards
      cases forwards
    rw [← treats.retired q target forwards]
    refine collapse.other q (fun isChild => ?_) (fun isRoot => ?_)
    · exact notOwner (isChild ▸ childOwns)
    · exact notOwner (isRoot ▸ inv'.root_owns key)
  · obtain ⟨free, touched⟩ := treats.levels m le
    refine ⟨free, touched.touch.mono (List.Subset.refl _) (fun q inRow notFree => ?_),
      fun q owns => ?_, fun q here => ?_⟩
    · refine collapse.other q (fun isChild => ?_) (fun isRoot => ?_)
      · exact notFree (treated (isChild ▸ childOwns) inRow touched)
      · exact notFree (treated (isRoot ▸ inv'.root_owns key) inRow touched)
    · obtain ⟨here, notTop⟩ := remains owns.member
      refine touched.owner q ⟨here, ?_⟩
      obtain ⟨sameLow, sameHigh⟩ :=
        collapse.fences_eq inv' (CollapseRoot.ne_root height inv' here notTop)
      rw [← sameLow, ← sameHigh]
      exact owns.covers
    · exact touched.row q (remains here).1

/-- The removal is complete, and shrinks the root as long as it has no separators: by
induction on the height.
-/
theorem concludes_shrinkRoot_done {removed : Option V} (inv : Inv N t shape) (three : 3 ≤ N)
    (mid : MidPass N (.remove key) map t' shape' (.shrinkRoot key (some removed)))
    (lower : shape'.height ≤ shape.height)
    (treats : Treats N (.remove key) key earlier t shape t' shape')
    (post_of
      : ∀ path t' shape' response,
          Treats N (.remove key) key earlier t shape t' shape'
          → post path t' response)
    : Concludes N post t' (.shrinkRoot key (some removed)) := by
  induction height : shape'.height using Nat.strong_induction_on generalizing t' shape' post with
  | _ n ih =>
      refine .step rfl (fun upgraded => ?_)
      obtain ⟨t₁, pc₁, result, removes⟩ := shrinkRoot_ok mid.inv key (some removed) true
      have passed
          : t'.latchedSection N true upgraded (.shrinkRoot key (some removed)) = .ok (t₁, pc₁) :=
        result
      refine ⟨t₁, pc₁, passed, fun weak => ?_⟩
      cases removes with
      | rootStays => exact .done (post_of _ t' shape' _ treats)
      | rootCollapses collapse =>
          have less := collapse.height_lt mid.inv
          have mid₁ := mid.advance three nofun rfl weak passed (collapse.preserves mid.inv)
          exact ih _ (height ▸ less) mid₁ (less.le.trans lower)
            (collapse.treats inv mid.inv lower treats) (fun _ => post_of _) rfl

/-- A removal's structural path, from a tree whose root has separators or is a leaf. -/
theorem concludes_shrinkRoot (three : 3 ≤ N) (separated : ¬ t.BareRoot)
    (mid : MidPass N (.remove key) map t shape (.shrinkRoot key none))
    (post_of
      : ∀ path t' shape' response,
          Treats N (.remove key) key path t shape t' shape'
          → post path t' response)
    : Concludes N post t (.shrinkRoot key none) := by
  have inv := mid.inv
  refine .step rfl (fun upgraded => ?_)
  obtain ⟨t₁, pc₁, result, removes⟩ := shrinkRoot_ok inv key none true
  have passed : t.latchedSection N true upgraded (.shrinkRoot key none) = .ok (t₁, pc₁) := result
  refine ⟨t₁, pc₁, passed, fun weak => ?_⟩
  cases removes with
  | rootCollapses collapse => exact absurd ⟨_, collapse.kind⟩ separated
  | rootStays =>
      have mid₁ := mid.advance three nofun rfl weak passed inv
      have entered (upgraded : Bool)
          : t.latchedSection N true upgraded (.removeRoot key) = .ok (t, .removeAttempt key t.root) :=
        rfl
      refine .step rfl (fun upgraded => ⟨t, _, entered upgraded, fun weak => ?_⟩)
      have mid₂ := mid₁.advance three nofun rfl weak (entered upgraded) inv
      refine concludes_removeAttempt three mid₂ (inv.root_owns key) (.inl ⟨rfl, separated⟩) ?_
      intro earlier t' shape' removed mid' touches
      refine concludes_shrinkRoot_done inv three mid' (Nat.le_of_eq touches.height)
        (touches.treats inv) (fun path t'' shape'' response treats => ?_)
      exact post_of _ t'' shape'' response (treats.mono
        (List.subset_cons_of_subset _
          (List.subset_cons_of_subset _ (List.subset_append_left _ _))))

/-- The fast path ends the removal, or leaves it to the structural path. -/
theorem concludes_tryRemoveWithoutRebalance (three : 3 ≤ N) (quiescent : Quiescent N t shape)
    (owns : OwnsAt t shape 0 p key)
    (post_of
      : ∀ path t' shape' response,
          Treats N (.remove key) key path t shape t' shape'
          → post path t' response)
    : Concludes N post t (.leafWrite (.tryRemoveWithoutRebalance key) p) := by
  have inv := quiescent.inv
  refine .step rfl (fun upgraded => ?_)
  obtain ⟨t₁, pc₁, result, writes⟩ :=
    leafWrite_ok inv (.tryRemoveWithoutRebalance key) (inv.allocated owns.member)
  refine ⟨t₁, pc₁, result, fun _ => ?_⟩
  cases writes with
  | retry misses => exact absurd owns misses
  | removeMissing =>
      exact .done (post_of _ t shape _ ((TouchesBelow.refl t shape).treats inv))
  | removeStructural =>
      have mid : MidPass N (.remove key) _ t shape (.shrinkRoot key none) :=
        .begin quiescent inv.represents (.inl rfl)
      refine concludes_shrinkRoot three quiescent.separated mid ?_
      exact fun path t' shape' response treats =>
        post_of _ t' shape' response (treats.mono (List.subset_cons_self _ _))
  | removeDone leaf _ updated =>
      exact .done (post_of _ t₁ shape _ ((updated.touchesBelow owns inv).treats inv))

end BLink
