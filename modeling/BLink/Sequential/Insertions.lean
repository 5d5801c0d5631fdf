import BLink.Sequential.Touches

/-! Insertions that run alone: they come to an end, and on every level they touch only the
owner of the key and the back link of its right neighbour.
-/

namespace BLink

open Library

variable {K V : Type} [TotalOrd K]

variable {N : Nat} {post : List (Passage K V) → Tree K V → Response K V → Prop} {t t₁ t' : Tree K V}
  {shape shape₁ shape' : Shape} {l : Nat} {p c : PageId} {pc pc' : Pc K V} {call : Call K V}
  {map : SortedMap K V} {path path' : List (Passage K V)}

/-- In the middle of a pass, the operation stays there, with the shape that the tree has then.
-/
theorem MidPass.advance {latched upgraded : Bool} (mid : MidPass N call map t shape pc)
    (three : 3 ≤ N) (writer : call.restart ≠ none) (unsettled : pc.isSettled = false)
    (weak : ∀ page, pc.upgrades t = some page → t.Active page → upgraded = true)
    (result : t.latchedSection N latched upgraded pc = .ok (t', pc')) (inv' : Inv N t' shape')
    : MidPass N call map t' shape' pc' := by
  obtain ⟨shape'', mid'⟩ := mid.step three writer unsettled weak result
  obtain rfl := mid'.inv.shape_unique inv'
  exact mid'

section

variable {key : K} {value : V} {separator : KeyHandle K} {leftKind rightKind : NodeKind K V}
  {front back : List (KeyHandle K)} {before after held : List PageId} {target : Option PageId}

/-- The repair after a split gives the former right neighbour its new predecessor, and changes
nothing else.
-/
theorem concludes_repairSplitBacklink (three : 3 ≤ N) (inv : Inv N t shape) (exact : Exact t)
    (member : p ∈ shape.row (l + 1))
    (split : SplitChild N t t₁ p c t.pages separator leftKind rightKind front back before after)
    (mid
      : MidPass N (.insert key value) map t₁ shape₁
          (.repairSplitBacklink key value t.pages (t.page c).right target held))
    (resumes
      : ∀ passage t₂,
          Relinked t₁ t₂ shape₁
          → MidPass N (.insert key value) map t₂ shape₁ (insertResume key value target)
          → (∀ s,
              t₂.page s = t₁.page s
              ∨ (t.page c).right = some s
                ∧ t₂.page s = { t₁.page s with previous := some t.pages })
          → Concludes N (fun path => post (passage :: path)) t₂ (insertResume key value target))
    : Concludes N post t₁
        (.repairSplitBacklink key value t.pages (t.page c).right target held) := by
  have childMember : c ∈ shape.row l := inv.child_mem member split.kind (by simp)
  have childActive := inv.active childMember
  have forwards := split.forward_eq inv member
  refine .step rfl (fun upgraded => ?_)
  obtain ⟨t₂, pc₂, result, inserts⟩ :=
    repairSplitBacklink_ok mid.inv key value (t.page c).right target held true mid.ok.1
  have passed
      : t₁.latchedSection N true upgraded
          (.repairSplitBacklink key value t.pages (t.page c).right target held)
        = .ok (t₂, pc₂) :=
    result
  refine ⟨t₂, pc₂, passed, fun weak => ?_⟩
  generalize oldSuccessor : (t.page c).right = old at *
  cases inserts with
  | repairSkipped =>
      refine resumes _ t₁ (.refl mid.inv) ?_ (fun s => .inl rfl)
      exact mid.advance three nofun rfl weak passed mid.inv
  | @repaired _ _ _ successor final _ _ l' inRow points finalMember resolves =>
      have relinked := Relinked.of_link mid.inv inRow points resolves
      rw [forwards] at resolves
      obtain ⟨rfl, -⟩ := exact.joined childActive oldSuccessor resolves
      refine resumes _ _ relinked ?_ (fun s => ?_)
      · exact mid.advance three nofun rfl weak passed (relinked.preserves mid.inv)
      · rw [Tree.link, Tree.setRight_self points, Tree.setPrevious, Tree.setPage_page]
        split_ifs with here
        · subst here
          exact .inr ⟨rfl, rfl⟩
        · exact .inl rfl

/-- The split of a child, with its repair, is one step of a pass. -/
theorem SplitChild.passesDown {t₂ : Tree K V} {next : PageId} {upgraded : Bool}
    (split : SplitChild N t t₁ p c t.pages separator leftKind rightKind front back before after)
    (three : 3 ≤ N) (inv : Inv N t shape) (exact : Exact t)
    (owns : OwnsAt t shape (l + 1) p (.ofKey key)) (inv₁ : Inv N t₁ shape₁)
    (relinked : Relinked t₁ t₂ shape₁) (isNew : next ∈ [c, t.pages])
    (contains : t₁.Contains (.ofKey key) next)
    (repaired
      : ∀ s,
          t₂.page s = t₁.page s
          ∨ (t.page c).right = some s ∧ t₂.page s = { t₁.page s with previous := some t.pages })
    (passed
      : ⟨(t, .insertAttempt key value p), upgraded,
          (t₁, .repairSplitBacklink key value t.pages (t.page c).right (some next) held)⟩ ∈ path)
    : PassesDown N (.insert key value) (.ofKey key) path t shape t₂ shape₁ l p [c] := by
  have member := owns.member
  have replaced := split.replaced inv three member
  have childMember : c ∈ shape.row l := inv.child_mem member split.kind (by simp)
  have childActive := inv.active childMember
  obtain ⟨start, rest, row, preserved, -⟩ := replaced.preserves inv
  obtain rfl := inv₁.shape_unique preserved
  -- The page whose back link is repaired is the exact right neighbour of the child.
  have neighbour {s : PageId} (points : (t.page c).right = some s)
      : s ∈ shape.row l ∧ s ≠ c ∧ Neighbours (shape.row l) c s := by
    obtain ⟨b, inRow, resolves, -⟩ := inv.exists_successor childMember points
    obtain ⟨rfl, -⟩ := exact.joined childActive points resolves
    exact ⟨inRow, inv.successor_ne childActive points resolves,
      inv.neighbours childMember points (inv.active inRow).2⟩
  have repairs
      : LinksRepaired t₁ t₂ (start ++ ([c, t.pages] ++ rest)) := by
    refine ⟨relinked.pages, fun q => ?_, fun q outside => ?_⟩
    · rw [relinked.framed.low, relinked.framed.high]
      exact ⟨rfl, rfl⟩
    · cases repaired q with
      | inl same => exact same
      | inr changed =>
          obtain ⟨inRow, notChild, -⟩ := neighbour changed.1
          rw [row] at inRow
          simp only [List.mem_append, List.mem_cons, List.not_mem_nil, or_false, not_or]
            at inRow outside
          rcases inRow with inStart | isChild | inRest
          · exact absurd inStart outside.1
          · exact absurd isChild notChild
          · exact absurd inRest outside.2.2
  have contains₂ : t₂.Contains (.ofKey key) next := by
    rw [Tree.Contains, relinked.framed.low, relinked.framed.high]
    exact contains
  refine replaced.passesDown inv owns row (relinked.preserves inv₁) repairs isNew contains₂ ?_
  intro t' same
  obtain ⟨owner, isOld, owned⟩ := replaced.exists_owner inv inv₁ isNew contains
  obtain rfl := List.mem_singleton.mp isOld
  have before (q : PageId) (_ : q ∈ shape.row l) : t.page q = t.page q := rfl
  refine .split rfl passed before owns.covers split childMember owned (Nat.le_refl _)
    (fun q inRow differs => ?_)
  have notParent : q ≠ p := inv.ne_of_level inRow member (by omega)
  have kept := split.other q notParent differs (Nat.ne_of_lt (inv.allocated inRow))
  rw [same q inRow (by simpa using differs)]
  cases repaired q with
  | inl isSame => exact .inl (isSame.trans kept)
  | inr changed =>
      obtain ⟨points, page⟩ := changed
      rw [kept] at page
      exact .inr ⟨(neighbour points).2.2, page⟩

/-- From a page with room that owns the key, the pass inserts the record: by induction on the
level of the page.
-/
theorem concludes_insertAttempt (three : 3 ≤ N)
    (mid : MidPass N (.insert key value) map t shape (.insertAttempt key value p))
    (owns : OwnsAt t shape l p (.ofKey key)) (room : (t.page p).kind.size < N)
    (post_of
      : ∀ path t' shape' response,
          TouchesBelow N (.insert key value) (.ofKey key) path t shape t' shape' l
          → post path t' response)
    : Concludes N post t (.insertAttempt key value p) := by
  induction l using Nat.strong_induction_on generalizing t shape p post with
  | _ l ih =>
      have inv := mid.inv
      have exact := ExactBut.exact mid.chains (Pc.not_repairs rfl rfl)
      refine .step rfl (fun upgraded => ?_)
      obtain ⟨t₁, pc₁, result, inserts⟩ :=
        insertAttempt_ok inv three key value true (inv.allocated owns.member)
      refine ⟨t₁, pc₁, result, fun weak => ?_⟩
      obtain ⟨shape₁, mid₁⟩ := mid.step three nofun rfl weak result
      cases inserts with
      | retry blocked => exact absurd (blocked rfl l owns) (Nat.ne_of_lt room)
      | move moves =>
          obtain ⟨m, rfl, inner, ready⟩ := moves.child_of_owns inv owns
          obtain rfl := mid₁.inv.shape_unique inv
          refine ih m (Nat.lt_succ_self m) mid₁ inner ready ?_
          intro path t' shape' response touches
          exact post_of _ t' shape' response
            ((passesDown_of_move inv owns inner).compose inv touches (List.subset_cons_self _ _))
      | done leaf _ updated =>
          obtain rfl := inv.level_unique owns.member leaf.member
          exact .done (post_of _ t₁ shape _ (updated.touchesBelow owns inv))
      | @split _ _ _ c target m _ separator leftKind rightKind _ _ _ _ member split goes covers =>
          obtain rfl := inv.level_unique owns.member member
          have childMember : c ∈ shape.row m := inv.child_mem member split.kind (by simp)
          obtain ⟨leftRoom, rightRoom⟩ :=
            split.joins.sizes_lt three (inv.page m c childMember).full split.leftLeast
              split.rightLeast
          have isNew : target ∈ [c, t.pages] := by simpa using goes
          have inRow := (split.replaced inv three member).mem_row inv mid₁.inv isNew
          refine concludes_repairSplitBacklink three inv exact member split mid₁ ?_
          intro passage t₂ relinked mid₂ repaired
          refine ih m (Nat.lt_succ_self m) mid₂ (OwnsAt.relinked ⟨inRow, covers⟩ relinked) ?_ ?_
          · rw [relinked.kind]
            cases goes with
            | inl same => rwa [same, split.left]
            | inr same => rwa [same, split.right]
          · intro path t' shape' response touches
            refine post_of _ t' shape' response ?_
            exact (split.passesDown three inv exact owns mid₁.inv relinked isNew covers repaired
              List.mem_cons_self).compose inv touches
                (List.subset_cons_of_subset _ (List.subset_cons_self _ _))

/-- The pass from a root with room. -/
theorem concludes_insertRoot (three : 3 ≤ N)
    (mid : MidPass N (.insert key value) map t shape (.insertRoot key value))
    (room : (t.page t.root).kind.size < N)
    (post_of
      : ∀ path t' shape' response,
          Treats N (.insert key value) (.ofKey key) path t shape t' shape'
          → post path t' response)
    : Concludes N post t (.insertRoot key value) := by
  have passed (upgraded : Bool)
      : t.latchedSection N true upgraded (.insertRoot key value)
        = .ok (t, .insertAttempt key value t.root) :=
    rfl
  refine .step rfl (fun upgraded => ⟨t, _, passed upgraded, fun weak => ?_⟩)
  have mid' := mid.advance three nofun rfl weak (passed upgraded) mid.inv
  refine concludes_insertAttempt three mid' (mid.inv.root_owns (.ofKey key)) room ?_
  exact fun path t' shape' response touches =>
    post_of _ t' shape' response ((touches.treats mid.inv).mono (List.subset_cons_self _ _))

/-- After a root split, all levels of the former tree have been treated when those of the new
tree have.
-/
theorem SplitChild.treats_root {middle : Tree K V} {query : Query K}
    (split
      : SplitChild N middle t₁ t.pages t.root (t.pages + 1) separator leftKind rightKind [] [] []
          [])
    (grow : GrowRoot N t middle) (three : 3 ≤ N) (inv : Inv N t shape) (inv₁ : Inv N t₁ shape₁)
    (treats : Treats N call query path t₁ shape₁ t' shape')
    : Treats N call query path t shape t' shape' := by
  have grown := grow.preserves inv
  have member : t.pages ∈ (shape.grow t.pages).row (shape.height + 1) := by
    rw [Shape.grow_top]
    exact List.mem_singleton_self _
  obtain ⟨start, rest, row, preserved, -⟩ := (split.replaced grown three member).preserves grown
  obtain rfl := inv₁.shape_unique preserved
  have same {q : PageId} (allocated : q < t.pages) (notRoot : q ≠ t.root)
      : t₁.page q = t.page q := by
    rw [split.other q (Nat.ne_of_lt allocated) notRoot (Nat.ne_of_lt (Nat.lt_succ_of_lt allocated)),
      grow.other q (Nat.ne_of_lt allocated) notRoot]
  have pages : t.pages ≤ t₁.pages := by
    rw [split.pages, grow.pages]
    omega
  have height : shape.height ≠ shape.height + 1 := by omega
  refine ⟨pages.trans treats.pages, fun q target forwards => ?_, fun m le => ?_⟩
  · have notRoot : q ≠ t.root := by
      intro isRoot
      rw [isRoot, inv.root_active.2] at forwards
      cases forwards
    have page := same (inv.forwards q target forwards).1 notRoot
    rw [← page]
    exact treats.retired q target (by rw [Tree.forward_congr page, forwards])
  · obtain ⟨free, touch, owner, rows⟩ := treats.levels m (Nat.le_succ_of_le le)
    rcases Nat.lt_or_eq_of_le le with lower | top
    · have unchanged : ((shape.grow t.pages).withRow shape.height
          (start ++ ([t.root, t.pages + 1] ++ rest))).row m = shape.row m := by
        rw [Shape.withRow_of_ne _ _ (Nat.ne_of_lt lower), Shape.grow_of_ne _ _ (by omega)]
      rw [unchanged] at touch rows
      refine ⟨free, touch.congr (fun q inRow => ?_) pages, ?_, ?_⟩
      · exact same (inv.allocated inRow) (inv.ne_root inRow lower)
      · exact fun q owns => (owner q owns).imp_right pages.trans
      · exact fun q inRow => (rows q inRow).imp_right pages.trans
    · subst top
      rw [Shape.grow_of_ne _ _ height, inv.top] at row
      obtain ⟨rfl, rfl⟩ : start = [] ∧ rest = [] := by
        have count := congrArg List.length row
        simp only [List.length_append, List.length_singleton] at count
        exact ⟨List.length_eq_zero_iff.mp (by omega), List.length_eq_zero_iff.mp (by omega)⟩
      rw [Shape.withRow_self] at rows
      have inside {q : PageId} (inRow : q ∈ shape'.row shape.height)
          : q = t.root ∨ t.pages ≤ q := by
        cases rows q inRow with
        | inl here =>
            simp only [List.nil_append, List.append_nil, List.mem_cons, List.not_mem_nil,
              or_false] at here
            refine here.imp_right (fun isNew => ?_)
            rw [isNew]
            exact Nat.le_succ _
        | inr fresh => exact .inr (pages.trans fresh)
      have owns := inv.root_owns query
      refine ⟨[t.root], .path owns.member owns.covers ?_, fun q here => ?_, fun q here => ?_⟩
      · intro q inRow notRoot
        rw [inv.top] at inRow
        exact absurd (List.mem_singleton.mp inRow) notRoot
      · exact (inside here.member).imp_left List.mem_singleton.mpr
      · refine (inside here).imp_left (fun isRoot => ?_)
        rw [isRoot]
        exact inv.root_mem

/-- A full root is split first, and then has one separator. -/
theorem concludes_splitRootIfFull (three : 3 ≤ N)
    (mid : MidPass N (.insert key value) map t shape (.splitRootIfFull key value))
    (post_of
      : ∀ path t' shape' response,
          Treats N (.insert key value) (.ofKey key) path t shape t' shape'
          → post path t' response)
    : Concludes N post t (.splitRootIfFull key value) := by
  have inv := mid.inv
  refine .step rfl (fun upgraded => ?_)
  obtain ⟨t₁, pc₁, result, inserts⟩ := splitRootIfFull_ok inv three key value true
  have passed
      : t.latchedSection N true upgraded (.splitRootIfFull key value) = .ok (t₁, pc₁) := result
  refine ⟨t₁, pc₁, passed, fun weak => ?_⟩
  obtain ⟨shape₁, mid₁⟩ := mid.step three nofun rfl weak passed
  cases inserts with
  | rootStays room =>
      obtain rfl := mid₁.inv.shape_unique inv
      exact concludes_insertRoot three mid₁ room (fun path t' shape' response treats =>
        post_of _ t' shape' response (treats.mono (List.subset_cons_self _ _)))
  | rootSplits grow split =>
      -- The root has no right sibling, so that no link is to be repaired.
      refine .step rfl (fun upgraded => ⟨t₁, .insertRoot key value, rfl, fun weak => ?_⟩)
      have repaired
          : t₁.latchedSection N true upgraded
              (.repairSplitBacklink key value (t.pages + 1) none none [t.root])
            = .ok (t₁, .insertRoot key value) :=
        rfl
      have mid₂ := mid₁.advance three nofun rfl weak repaired mid₁.inv
      refine concludes_insertRoot three mid₂ ?_ ?_
      · rw [split.root, grow.root, split.parent]
        show 1 < N
        omega
      · intro path t' shape' response treats
        have treated := split.treats_root grow three inv mid₁.inv treats
        exact post_of _ t' shape' response
          (treated.mono (List.subset_cons_of_subset _ (List.subset_cons_self _ _)))

/-- The fast path ends the insertion, or leaves it to the structural path. -/
theorem concludes_tryInsertWithoutSplit (three : 3 ≤ N) (quiescent : Quiescent N t shape)
    (owns : OwnsAt t shape 0 p (.ofKey key))
    (post_of
      : ∀ path t' shape' response,
          Treats N (.insert key value) (.ofKey key) path t shape t' shape'
          → post path t' response)
    : Concludes N post t (.leafWrite (.tryInsertWithoutSplit key value) p) := by
  have inv := quiescent.inv
  refine .step rfl (fun upgraded => ?_)
  obtain ⟨t₁, pc₁, result, writes⟩ :=
    leafWrite_ok inv (.tryInsertWithoutSplit key value) (inv.allocated owns.member)
  refine ⟨t₁, pc₁, result, fun _ => ?_⟩
  cases writes with
  | retry misses => exact absurd owns misses
  | insertFull =>
      refine concludes_splitRootIfFull three (.begin quiescent inv.represents (.inl rfl)) ?_
      exact fun path t' shape' response treats =>
        post_of _ t' shape' response (treats.mono (List.subset_cons_self _ _))
  | insertDone leaf _ updated =>
      exact .done (post_of _ t₁ shape _ ((updated.touchesBelow owns inv).treats inv))

end

end BLink
