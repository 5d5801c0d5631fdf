import BLink.Sections.Insertion
import BLink.Sequential.Passes
import BLink.Subtrees.Replacement

/-! The preemptive split of a full child, in any valid subtree. -/

namespace BLink

open Library

variable {K V : Type} [TotalOrd K] {N : Nat} {t : Tree K V} {l : Nat} {p c : PageId}

/-- A child's position cuts the separators and the children of its parent. -/
theorem ValidSubtree.position (valid : ValidSubtree N t l p) {keys : List (KeyHandle K)}
    {children : List PageId} (kind : (t.page p).kind = .internal keys children) {index : Nat}
    (slot : children[index]? = some c)
    : ∃ front back before after,
        keys = front ++ back
        ∧ children = before ++ c :: after
        ∧ front.length = index
        ∧ before.length = front.length := by
  have count := valid.aligned kind
  obtain ⟨bound, rfl⟩ := List.getElem?_eq_some_iff.mp slot
  refine ⟨keys.take index, keys.drop index, children.take index, children.drop (index + 1),
    (List.take_append_drop _ _).symm, ?_, ?_, ?_⟩
  · rw [List.getElem_cons_drop, List.take_append_drop]
  · rw [List.length_take]
    omega
  · rw [List.length_take, List.length_take]
    omega

/-- The child `c` of `p` is split into itself and a new page, which is installed in `p`. -/
structure ChildSplit (N : Nat) (t : Tree K V) (p c : PageId) (separator : KeyHandle K)
    (left right : Node K V) (front back : List (KeyHandle K)) (before after : List PageId)
    : Prop where
  kind : (t.page p).kind = .internal (front ++ back) (before ++ c :: after)
  aligned : before.length = front.length
  room : (front ++ back).length < N
  joins : Joins left.kind separator right.kind (t.page c).kind
  starts : right.kind.StartsAt separator
  leftLeast : left.kind.least N ≤ left.kind.size
  rightLeast : right.kind.least N ≤ right.kind.size
  leftSize : left.kind.size < N
  rightSize : right.kind.size < N
  leftLow : left.lowKey = t.low c
  leftHigh : left.highKey = some separator
  rightLow : right.lowKey = some separator
  rightHigh : right.highKey = t.high c

namespace ChildSplit

variable {separator : KeyHandle K} {left right : Node K V} {front back : List (KeyHandle K)}
  {before after : List PageId}

/-- The parent after the split. -/
def parent (t : Tree K V) (p c : PageId) (separator : KeyHandle K) (front back : List (KeyHandle K))
    (before after : List PageId)
    : Node K V :=
  {
    t.page p with
    kind := .internal (front ++ separator :: back) (before ++ c :: t.pages :: after)
  }

omit [TotalOrd K] in
theorem isChild (split : ChildSplit N t p c separator left right front back before after)
    : c ∈ t.children p := by
  simp [Tree.children, split.kind]

/-- What the two halves are after the split. -/
theorem pages (split : ChildSplit N t p c separator left right front back before after)
    (valid : ValidSubtree N t (l + 1) p) (allocated : ∀ q ∈ t.subpages (l + 1) p, q < t.pages)
    (top : Node K V)
    : (t.afterSplit p c left right top).page c = left
      ∧ (t.afterSplit p c left right top).page t.pages = right := by
  have notParent : c ≠ p := valid.child_ne split.isChild
  have parentOld : p ≠ t.pages := Nat.ne_of_lt (allocated p (t.mem_subpages_self _ p))
  have childOld : c ≠ t.pages :=
    Nat.ne_of_lt (allocated c (Tree.subpages_child split.isChild (t.mem_subpages_self l c)))
  constructor
  · simp [Tree.afterSplit, notParent, childOld]
  · simp [Tree.afterSplit, parentOld.symm]

/-- The split replaces the child by itself and the new page. -/
theorem regrafted (split : ChildSplit N t p c separator left right front back before after)
    (three : 3 ≤ N) (valid : ValidSubtree N t (l + 1) p)
    (allocated : ∀ q ∈ t.subpages (l + 1) p, q < t.pages)
    : Regrafted N t
        (t.afterSplit p c left right (parent t p c separator front back before after)) l p front []
        [separator] back before [c] [c, t.pages] after := by
  have below := valid.child split.isChild
  obtain ⟨pageLeft, pageRight⟩ :=
    split.pages valid allocated (parent t p c separator front back before after)
  generalize made
    : t.afterSplit p c left right (parent t p c separator front back before after) = t'
    at pageLeft pageRight ⊢
  have pageParent : t'.page p = parent t p c separator front back before after := by
    simp [← made, Tree.afterSplit]
  have other : ∀ q ∈ t.subpages (l + 1) p, q ≠ p → q ∉ [c] → t'.page q = t.page q := by
    intro q member notTop notChild
    have old : q ≠ t.pages := Nat.ne_of_lt (allocated q member)
    simp only [List.mem_singleton] at notChild
    simp [← made, Tree.afterSplit, notTop, notChild, old]
  have fences
      : ∀ child ∈ (t.page c).kind.children,
          t'.low child = t.low child ∧ t'.high child = t.high child := by
    intro child inside
    obtain ⟨member, notTop, notChildren⟩ := valid.grandchild_ne split.isChild inside
    have page := other child member notTop
      (fun same => notChildren (List.mem_singleton.mp same ▸ split.isChild))
    exact ⟨congrArg Node.lowKey page, congrArg Node.highKey page⟩
  have cut : CutAt t' c t.pages (t.low c) (t.high c) separator left.kind right.kind := {
    left := congrArg Node.kind pageLeft
    leftLow := (congrArg Node.lowKey pageLeft).trans split.leftLow
    leftHigh := (congrArg Node.highKey pageLeft).trans split.leftHigh
    right := congrArg Node.kind pageRight
    rightLow := (congrArg Node.lowKey pageRight).trans split.rightLow
    rightHigh := (congrArg Node.highKey pageRight).trans split.rightHigh
  }
  obtain ⟨leftOk, rightOk, tiles⟩ :=
    cut.ok below.ok.content below.ok.leaf_iff split.joins split.starts
      (Nat.lt_of_lt_of_le (split.joins.least_pos three) split.leftLeast)
      (Nat.le_of_lt split.leftSize) (Nat.le_of_lt split.rightSize) fences
  obtain ⟨-, spans, -⟩ := (tiles_iff split.aligned).mp (valid.tiles split.kind)
  rw [spans.lower_eq, spans.upper_eq] at tiles
  exact {
    kind := split.kind
    parent := pageParent
    aligned := split.aligned
    count := rfl
    full := by
      have room := split.room
      simp only [List.length_append, List.length_cons, List.length_nil] at room ⊢
      omega
    tiles := tiles
    newOk := by
      intro q isNew
      simp only [List.mem_cons, List.not_mem_nil, or_false] at isNew
      cases isNew with
      | inl isLeft =>
          rw [isLeft, pageLeft]
          exact ⟨split.leftLeast, leftOk⟩
      | inr isRight =>
          rw [isRight, pageRight]
          exact ⟨split.rightLeast, rightOk⟩
    children := by simpa [Tree.children, pageLeft, pageRight] using split.joins.children_eq
    entries := by simpa [Tree.entries, pageLeft, pageRight] using split.joins.entries_eq
    other := other
  }

/-- The separator of an internal child moves up, so that nothing changes in the order. -/
theorem separators (split : ChildSplit N t p c separator left right front back before after)
    (three : 3 ≤ N) (valid : ValidSubtree N t (l + 1) p)
    (allocated : ∀ q ∈ t.subpages (l + 1) p, q < t.pages) (internal : 0 < l)
    : (t.afterSplit p c left right (parent t p c separator front back before after)).separatorsBelow
          (l + 1) p
      = t.separatorsBelow (l + 1) p := by
  obtain ⟨m, rfl⟩ := Nat.exists_eq_succ_of_ne_zero (Nat.ne_of_gt internal)
  obtain ⟨pageLeft, pageRight⟩ :=
    split.pages valid allocated (parent t p c separator front back before after)
  refine (split.regrafted three valid allocated).separators valid rfl (fun f => ?_)
  have below := valid.child split.isChild
  have notLeaf : (t.page c).kind.isLeaf = false := by
    rw [Bool.eq_false_iff]
    intro leaf
    exact Nat.succ_ne_zero m (below.ok.leaf_iff.mp leaf)
  simp only [List.map_cons, List.map_nil, pageLeft, pageRight, weave, List.flatten_cons,
    List.flatten_nil, List.append_nil, split.joins.weave_eq notLeaf f]

end ChildSplit

/-- A full child of a page with room is split exactly: the subtree stays valid, with the same
height, records and, above the leaves, separators; both halves are as large as they must be and
have room; their fences meet at the parent's new separator and are the old ones elsewhere; the
right half takes over the right link; and an insertion whose key is routed to the child goes on in
the half that the key belongs to.
-/
theorem split_exact (three : 3 ≤ N) (valid : ValidSubtree N t (l + 1) p)
    (allocated : ∀ q ∈ t.subpages (l + 1) p, q < t.pages) {keys : List (KeyHandle K)}
    {children : List PageId} (kind : (t.page p).kind = .internal keys children)
    (room : keys.length < N) {index : Nat} (slot : children[index]? = some c)
    (full : (t.page c).occupancy = N)
    : ∃ left right split keys' children',
        (t.page c).splitFull N c t.pages = .ok (left, right, split)
        ∧ InternalNode.insertSplit N keys children index split.separator split.right
          = .ok (keys', children')
        ∧ let t' :=
            t.afterSplit p c left right { t.page p with kind := .internal keys' children' }
          ValidSubtree N t' (l + 1) p
          ∧ t'.recordsBelow (l + 1) p = t.recordsBelow (l + 1) p
          ∧ (0 < l → t'.separatorsBelow (l + 1) p = t.separatorsBelow (l + 1) p)
          ∧ (left.minimum N ≤ left.occupancy ∧ left.occupancy < N)
          ∧ (right.minimum N ≤ right.occupancy ∧ right.occupancy < N)
          ∧ keys' = keys.insertIdx index split.separator
          ∧ left.highKey = some split.separator
          ∧ right.lowKey = some split.separator
          ∧ left.lowKey = t.low c
          ∧ right.highKey = t.high c
          ∧ left.right = some t.pages
          ∧ right.right = (t.page c).right
          ∧ ∀ key value,
              (t.page p).route (.ofKey key) = .ok .here
              → InternalNode.childIndex keys (.ofKey key) = .ok index
              → ∃ target repair,
                  t.insertAttempt N key value p true = .ok (t', repair)
                  ∧ repair
                    = .repairSplitBacklink key value t.pages split.oldSuccessor (some target) [p, c]
                  ∧ (target = c ∨ target = t.pages)
                  ∧ Covers (t'.low target) (t'.high target) (.ofKey key) := by
  obtain ⟨front, back, before, after, rfl, rfl, rfl, aligned⟩ := valid.position kind slot
  have isChild : c ∈ t.children p := by simp [Tree.children, kind]
  obtain ⟨separator, leftKind, rightKind, splits, joins, starts, leftLeast, rightLeast, leftSize,
      rightSize⟩ :=
    Node.splitFull_ok c t.pages three full
      (fun keys children kind => (valid.child isChild).aligned kind)
  have count := valid.aligned kind
  have spliced := InternalNode.insertSplit_ok separator t.pages aligned count room
  refine ⟨_, _, _, _, _, splits, spliced, ?_⟩
  intro t'
  have split : ChildSplit N t p c separator
      { t.page c with highKey := some separator, right := some t.pages, kind := leftKind }
      {
        isRoot := false
        lowKey := some separator
        highKey := (t.page c).highKey
        previous := some c
        right := (t.page c).right
        kind := rightKind
      }
      front back before after := {
    kind := kind
    aligned := aligned
    room := room
    joins := joins
    starts := starts
    leftLeast := leftLeast
    rightLeast := rightLeast
    leftSize := leftSize
    rightSize := rightSize
    leftLow := rfl
    leftHigh := rfl
    rightLow := rfl
    rightHigh := rfl
  }
  have graft := split.regrafted three valid allocated
  have inserted : front ++ separator :: back = (front ++ back).insertIdx front.length separator :=
    (Array.insertIdx_append_length front back separator).symm
  refine ⟨graft.valid' valid, graft.records valid,
    split.separators three valid allocated, ⟨leftLeast, leftSize⟩, ⟨rightLeast, rightSize⟩, inserted,
    rfl, rfl, rfl, rfl, rfl, rfl, ?_⟩
  intro key value routed found
  obtain ⟨pageLeft, pageRight⟩ := split.pages valid allocated
    (ChildSplit.parent t p c separator front back before after)
  have covers := valid.covers_child kind found slot (Node.covers_of_route routed)
  have sides := covers.cut separator
  have notFull : (t.page p).occupancy ≠ N := by
    rw [Node.occupancy_eq, kind]
    exact Nat.ne_of_lt room
  have active : (t.page c).isRedirect = false := (valid.child isChild).isRedirect_eq_false
  have child : Array.index (before ++ c :: after) front.length = .ok c := by
    rw [← aligned]
    exact Array.index_append before c after
  refine ⟨if compare key separator.key ≠ .lt then t.pages else c, _, ?_, rfl, ?_, ?_⟩
  · simp only [Tree.insertAttempt, routed, ok_bind, notFull, if_false, kind, found, child, active,
      full, if_true, splits, spliced]
    rfl
  · split_ifs <;> simp
  · split_ifs with side
    · have page : t'.page t.pages = _ := pageRight
      rw [Tree.low, Tree.high, page]
      exact sides.2 side
    · have page : t'.page c = _ := pageLeft
      rw [Tree.low, Tree.high, page]
      exact sides.1 (not_not.mp side)

/-- After four insertions the second leaf is full at capacity three. -/
theorem split_exact_second
    : ∃ t : Tree Nat Nat,
        (t.page t.root).kind = .internal [⟨1, 20⟩] [0, 2]
        ∧ (t.page 2).occupancy = 3
        ∧ ∃ l left right split keys' children',
            (t.page 2).splitFull 3 2 t.pages = .ok (left, right, split)
            ∧ InternalNode.insertSplit 3 [⟨1, 20⟩] [0, 2] 1 split.separator split.right
              = .ok (keys', children')
            ∧ (t.afterSplit t.root 2 left right
                { t.page t.root with kind := .internal keys' children' }).recordsBelow (l + 1)
                  t.root
              = t.recordsBelow (l + 1) t.root := by
  have plays : ((System.fresh : System Unit Nat Nat).replay .smallest [()]
      ([10, 20, 30].flatMap (fun key => Move.whole () (.insert key key) 3)
        ++ Move.whole () (.insert 40 40) 8)).map
        (fun played =>
          (played.2.isQuiet [()], (played.2.tree.page played.2.tree.root).kind,
            (played.2.tree.page 2).occupancy))
      = some (true, .internal [⟨1, 20⟩] [0, 2], 3) := by
    decide +kernel
  obtain ⟨⟨trace, s⟩, replayed, checks⟩ := Option.map_eq_some_iff.mp plays
  simp only [Prod.mk.injEq] at checks
  obtain ⟨quiet, kind, full⟩ := checks
  obtain ⟨shape, quiescent⟩ := single_thread_quiescent
    (System.reachable_of_replay (fun _ => List.mem_cons_self) replayed)
    (System.idle_of_isQuiet (fun _ => List.mem_cons_self) quiet ())
  have inv := quiescent.inv
  obtain ⟨l, height⟩ := inv.pos_of_internal inv.root_mem kind
  have member := inv.root_mem
  rw [height] at member
  obtain ⟨left, right, split, keys', children', splits, spliced, -, records, -⟩ :=
    split_exact (by decide) (inv.validSubtree member) (inv.subpages_allocated member) kind
      (by decide) (show ([0, 2] : List PageId)[1]? = some 2 from rfl) full
  exact ⟨s.tree, kind, full, l, left, right, split, keys', children', splits, spliced, records⟩

end BLink
