import BLink.Subtrees.Valid

/-! Replacing neighbouring children of the root page of a subtree.
Splits, borrowings and merges all give one page and some neighbouring children of it anew. When
the new children fill the interval of the old ones with the same content, the subtree stays
valid and keeps its records and separators, without a look at what lies below.
-/

namespace BLink

open Library

variable {K V : Type} [TotalOrd K] {N : Nat} {t t' : Tree K V} {l : Nat} {q : PageId}
  {front inner inner' back : List (KeyHandle K)} {before old new after : List PageId}

/-- The page `q` has the children `new` with the separators `inner'` between them where it had the
children `old` with the separators `inner`. No other page of its subtree is changed.
-/
structure Regrafted (N : Nat) (t t' : Tree K V) (l : Nat) (q : PageId)
    (front inner inner' back : List (KeyHandle K)) (before old new after : List PageId)
    : Prop where
  kind
    : (t.page q).kind = .internal (front ++ (inner ++ back)) (before ++ (old ++ after))
  parent
    : t'.page q
      = {
          t.page q with
          kind := .internal (front ++ (inner' ++ back)) (before ++ (new ++ after))
        }
  aligned : before.length = front.length
  count : old.length = inner.length + 1
  full : (front ++ (inner' ++ back)).length ≤ N
  tiles
    : Tiles (Spans t'.low t'.high) (front.getLast?.or (t.low q)) inner' new
        (back.head?.or (t.high q))
  newOk
    : ∀ p ∈ new,
        (t'.page p).kind.least N ≤ (t'.page p).kind.size ∧ SubpageOk N t' l p
  children : new.flatMap t'.children = old.flatMap t.children
  entries : new.flatMap t'.entries = old.flatMap t.entries
  other : ∀ p ∈ t.subpages (l + 1) q, p ≠ q → p ∉ old → t'.page p = t.page p

namespace Regrafted

variable (graft : Regrafted N t t' l q front inner inner' back before old new after)
  (valid : ValidSubtree N t (l + 1) q)

include graft

theorem slots : t.children q = before ++ (old ++ after) := by
  simp [Tree.children, graft.kind]

theorem slots' : t'.children q = before ++ (new ++ after) := by
  simp [Tree.children, graft.parent]

include valid

/-- The subtrees of the other children stay as they are. -/
theorem sibling {child : PageId} (inside : child ∈ before ++ after)
    : ∀ p ∈ t.subpages l child, t'.page p = t.page p := by
  have nodup := valid.children_nodup
  rw [graft.slots] at nodup
  have isChild : child ∈ t.children q := by
    rw [graft.slots]
    cases List.mem_append.mp inside with
    | inl left => exact List.mem_append_left _ left
    | inr right => simp [right]
  have notOld : child ∉ old := by
    obtain ⟨-, rest, apart⟩ := List.nodup_append.mp nodup
    obtain ⟨-, -, apartAfter⟩ := List.nodup_append.mp rest
    intro isOld
    cases List.mem_append.mp inside with
    | inl left => exact apart child left child (List.mem_append_left _ isOld) rfl
    | inr right => exact apartAfter child isOld child right rfl
  have below := valid.child isChild
  intro p member
  refine graft.other p (Tree.subpages_child isChild member) ?_ ?_
  · intro same
    rw [same] at member
    exact below.not_mem_of_lt valid (Nat.lt_succ_self l) member
  · intro isOld
    have sibling : p ∈ t.children q := by
      rw [graft.slots]
      simp [isOld]
    have alike := valid.child sibling
    rw [below.eq_of_mem member alike] at isOld
    exact notOld isOld

/-- So do the subtrees of the old children's children. -/
theorem grandchild {m : Nat} {parent child : PageId} (level : l = m + 1) (isOld : parent ∈ old)
    (inside : child ∈ t.children parent)
    : ValidSubtree N t m child
      ∧ (t.page child).kind.least N ≤ (t.page child).kind.size
      ∧ ∀ p ∈ t.subpages m child, t'.page p = t.page p := by
  subst level
  have isChild : parent ∈ t.children q := by
    rw [graft.slots]
    simp [isOld]
  have parentValid := valid.child isChild
  have below := parentValid.child inside
  refine ⟨below, (parentValid.2 child inside).1, ?_⟩
  intro p member
  refine graft.other p
    (Tree.subpages_child isChild (Tree.subpages_child inside member)) ?_ ?_
  · intro same
    rw [same] at member
    exact below.not_mem_of_lt valid (by omega) member
  · intro alsoOld
    have sibling : p ∈ t.children q := by
      rw [graft.slots]
      simp [alsoOld]
    have alike := valid.child sibling
    exact below.not_mem_of_lt alike (Nat.lt_succ_self m) member

/-- The parent's children still tile its interval. -/
theorem parentOk : SubpageOk N t' (l + 1) q := by
  have low : t'.low q = t.low q := by rw [Tree.low, graft.parent]; rfl
  have high : t'.high q = t.high q := by rw [Tree.high, graft.parent]; rfl
  have content := valid.ok.content
  rw [graft.kind] at content
  obtain ⟨frontTiles, -, backTiles⟩ := (tiles_window_iff graft.aligned graft.count).mp content
  have kept {child lower upper} (inside : child ∈ before ++ after)
      (spans : Spans t.low t.high lower upper child)
      : Spans t'.low t'.high lower upper child := by
    have page := graft.sibling valid inside child (t.mem_subpages_self l child)
    exact {
      lower_eq := (congrArg Node.lowKey page).trans spans.lower_eq
      upper_eq := (congrArg Node.highKey page).trans spans.upper_eq
      below := spans.below
    }
  refine {
    content := ?_
    leaf_iff := by rw [graft.parent]; simp [NodeKind.isLeaf]
    below := by rw [low, high]; exact valid.ok.below
    full := by rw [graft.parent]; exact graft.full
  }
  rw [graft.parent, low, high]
  refine (tiles_window_iff graft.aligned graft.tiles.length).mpr ⟨?_, graft.tiles, ?_⟩
  · exact frontTiles.imp (fun _ inside _ _ => kept (List.mem_append_left _ inside))
  · exact backTiles.imp (fun _ inside _ _ => kept (List.mem_append_right _ inside))

/-- The subtree stays valid. -/
theorem valid' : ValidSubtree N t' (l + 1) q := by
  refine ⟨graft.parentOk valid, ?_⟩
  rw [graft.slots']
  intro child isChild
  have either : child ∈ before ++ after ∨ child ∈ new := by
    simp only [List.mem_append] at isChild ⊢
    tauto
  cases either with
  | inl inside =>
      have same := graft.sibling valid inside
      have wasChild : child ∈ t.children q := by
        rw [graft.slots]
        simp only [List.mem_append] at inside ⊢
        tauto
      obtain ⟨least, below⟩ := valid.2 child wasChild
      rw [same child (t.mem_subpages_self l child)]
      exact ⟨least, below.congr same⟩
  | inr isNew =>
      obtain ⟨least, ok⟩ := graft.newOk child isNew
      refine ⟨least, ?_⟩
      cases l with
      | zero => exact ok
      | succ m =>
          refine ⟨ok, ?_⟩
          intro grandchild inside
          have inOld : grandchild ∈ old.flatMap t.children := by
            rw [← graft.children]
            exact List.mem_flatMap.mpr ⟨child, isNew, inside⟩
          obtain ⟨parent, isOld, wasInside⟩ := List.mem_flatMap.mp inOld
          obtain ⟨below, enough, same⟩ := graft.grandchild valid rfl isOld wasInside
          rw [same grandchild (t.mem_subpages_self m grandchild)]
          exact ⟨enough, below.congr same⟩

/-- It keeps its records. -/
theorem records : t'.recordsBelow (l + 1) q = t.recordsBelow (l + 1) q := by
  have outside : ∀ child ∈ before ++ after, t'.recordsBelow l child = t.recordsBelow l child :=
    fun child inside => Tree.recordsBelow_congr (graft.sibling valid inside)
  have inside : new.flatMap (t'.recordsBelow l) = old.flatMap (t.recordsBelow l) := by
    cases l with
    | zero => exact graft.entries
    | succ m =>
        have moved : new.flatMap (t'.recordsBelow (m + 1))
            = (new.flatMap t'.children).flatMap (t'.recordsBelow m) := by
          rw [List.flatMap_assoc]
          rfl
        have wasThere : old.flatMap (t.recordsBelow (m + 1))
            = (old.flatMap t.children).flatMap (t.recordsBelow m) := by
          rw [List.flatMap_assoc]
          rfl
        rw [moved, wasThere, graft.children]
        refine List.flatMap_congr (fun grandchild member => ?_)
        obtain ⟨parent, isOld, wasInside⟩ := List.mem_flatMap.mp member
        exact Tree.recordsBelow_congr (graft.grandchild valid rfl isOld wasInside).2.2
  rw [Tree.recordsBelow, Tree.recordsBelow, graft.slots, graft.slots', List.flatMap_append,
    List.flatMap_append, List.flatMap_append, List.flatMap_append, inside]
  congr 1
  · exact List.flatMap_congr (fun child left => outside child (List.mem_append_left _ left))
  · congr 1
    exact List.flatMap_congr (fun child right => outside child (List.mem_append_right _ right))

/-- It keeps its separators when the new children have those of the old ones, each with its own
separators between those of its children.
-/
theorem separators {m : Nat} (level : l = m + 1)
    (woven
      : ∀ f : PageId → List (KeyHandle K),
          weave inner'
              (new.map
                (fun c => weave (t'.page c).kind.separators ((t'.page c).kind.children.map f)))
            = weave inner
                (old.map
                  (fun c => weave (t.page c).kind.separators ((t.page c).kind.children.map f))))
    : t'.separatorsBelow (l + 1) q = t.separatorsBelow (l + 1) q := by
  have outside
      : ∀ child ∈ before ++ after, t'.separatorsBelow l child = t.separatorsBelow l child :=
    fun child inside => Tree.separatorsBelow_congr (graft.sibling valid inside)
  have below
      : ∀ grandchild ∈ new.flatMap t'.children,
          t'.separatorsBelow m grandchild = t.separatorsBelow m grandchild := by
    intro grandchild member
    rw [graft.children] at member
    obtain ⟨parent, isOld, wasInside⟩ := List.mem_flatMap.mp member
    exact Tree.separatorsBelow_congr (graft.grandchild valid level isOld wasInside).2.2
  have inside
      : weave inner' (new.map (t'.separatorsBelow l))
        = weave inner (old.map (t.separatorsBelow l)) := by
    subst level
    refine Eq.trans (congrArg _ (List.map_congr_left (fun child isNew => ?_)))
      (woven (t.separatorsBelow m))
    rw [Tree.separatorsBelow]
    refine congrArg _ (List.map_congr_left (fun grandchild member => ?_))
    exact below grandchild (List.mem_flatMap.mpr ⟨child, isNew, member⟩)
  have newCount := graft.tiles.length
  have before_eq : before.map (t'.separatorsBelow l) = before.map (t.separatorsBelow l) :=
    List.map_congr_left (fun child left => outside child (List.mem_append_left _ left))
  have after_eq : after.map (t'.separatorsBelow l) = after.map (t.separatorsBelow l) :=
    List.map_congr_left (fun child right => outside child (List.mem_append_right _ right))
  rw [Tree.separatorsBelow, Tree.separatorsBelow, graft.slots, graft.slots', graft.parent,
    graft.kind]
  simp only [NodeKind.separators, List.map_append]
  rw [weave_window (by simpa using graft.aligned) (by simpa using newCount),
    weave_window (by simpa using graft.aligned) (by simpa using graft.count), before_eq, after_eq,
    inside]

end Regrafted

omit [TotalOrd K] in
/-- Joined contents have the separators of both, with the one between them. -/
theorem Joins.weave_eq {left right whole : NodeKind K V} {separator : KeyHandle K}
    (joins : Joins left separator right whole) (internal : whole.isLeaf = false)
    (f : PageId → List (KeyHandle K))
    : weave whole.separators (whole.children.map f)
      = weave left.separators (left.children.map f)
        ++ separator :: weave right.separators (right.children.map f) := by
  cases joins with
  | leaf => cases internal
  | internal leftAligned _ =>
      simp only [NodeKind.separators, NodeKind.children, List.map_append]
      exact weave_append (by simpa using leftAligned)

/-- Two pages have the parts of a content that is cut at a separator. -/
structure CutAt (t' : Tree K V) (first second : PageId) (lower upper : Option (KeyHandle K))
    (separator : KeyHandle K) (leftKind rightKind : NodeKind K V)
    : Prop where
  left : (t'.page first).kind = leftKind
  leftLow : t'.low first = lower
  leftHigh : t'.high first = some separator
  right : (t'.page second).kind = rightKind
  rightLow : t'.low second = some separator
  rightHigh : t'.high second = upper

/-- The two pages are well formed, and they tile the interval of the content. -/
theorem CutAt.ok {first second : PageId} {lower upper : Option (KeyHandle K)}
    {separator : KeyHandle K} {leftKind rightKind whole : NodeKind K V}
    (cut : CutAt t' first second lower upper separator leftKind rightKind)
    (content : Content t.low t.high lower upper whole) (leaf_iff : whole.isLeaf ↔ l = 0)
    (joins : Joins leftKind separator rightKind whole) (starts : rightKind.StartsAt separator)
    (nonempty : 0 < leftKind.size) (leftSize : leftKind.size ≤ N) (rightSize : rightKind.size ≤ N)
    (fences
      : ∀ child ∈ whole.children, t'.low child = t.low child ∧ t'.high child = t.high child)
    : SubpageOk N t' l first
      ∧ SubpageOk N t' l second
      ∧ Tiles (Spans t'.low t'.high) lower [separator] [first, second] upper := by
  obtain ⟨leftContent, rightContent, lowBelow, highBelow⟩ := content.cut joins starts nonempty
  obtain ⟨leftLeaf, rightLeaf⟩ := joins.isLeaf_eq
  have parts := joins.children_eq
  refine ⟨?_, ?_, ⟨cut.leftLow, cut.leftHigh, lowBelow⟩, ⟨cut.rightLow, cut.rightHigh, highBelow⟩⟩
  · refine {
      content := ?_
      leaf_iff := by rw [cut.left, leftLeaf]; exact leaf_iff
      below := by rw [cut.leftLow, cut.leftHigh]; exact lowBelow
      full := by rw [cut.left]; exact leftSize
    }
    rw [cut.left, cut.leftLow, cut.leftHigh]
    exact leftContent.congr (fun child inside =>
      fences child (parts ▸ List.mem_append_left _ inside))
  · refine {
      content := ?_
      leaf_iff := by rw [cut.right, rightLeaf]; exact leaf_iff
      below := by rw [cut.rightLow, cut.rightHigh]; exact highBelow
      full := by rw [cut.right]; exact rightSize
    }
    rw [cut.right, cut.rightLow, cut.rightHigh]
    exact rightContent.congr (fun child inside =>
      fences child (parts ▸ List.mem_append_right _ inside))

end BLink
