import BLink.Sections.Removal
import BLink.Subtrees.Splits

/-! Borrowing between two neighbouring children and merging them, in any valid subtree. -/

namespace BLink

open Library

variable {K V : Type} [TotalOrd K] {N : Nat} {t : Tree K V} {l : Nat} {p first second : PageId}

omit [TotalOrd K] in
/-- A page that gets its own upper fence and content is as it was. -/
theorem Node.with_high_kind {node : Node K V} {high : Option (KeyHandle K)} {kind : NodeKind K V}
    (sameHigh : node.highKey = high) (sameKind : node.kind = kind)
    : { node with highKey := high, kind } = node := by
  subst sameHigh sameKind
  rfl

omit [TotalOrd K] in
/-- So is one that gets its own lower fence and content. -/
theorem Node.with_low_kind {node : Node K V} {low : Option (KeyHandle K)} {kind : NodeKind K V}
    (sameLow : node.lowKey = low) (sameKind : node.kind = kind)
    : { node with lowKey := low, kind } = node := by
  subst sameLow sameKind
  rfl

-----------------------------------------------------------------------------------------
-- Neighbouring children
-----------------------------------------------------------------------------------------

/-- `first` and `second` are neighbouring children of the root page `p` of a valid subtree. -/
structure Pair (N : Nat) (t : Tree K V) (l : Nat) (p first second : PageId)
    (separator : KeyHandle K) (front back : List (KeyHandle K)) (before after : List PageId)
    : Prop where
  valid : ValidSubtree N t (l + 1) p
  kind
    : (t.page p).kind
      = .internal (front ++ separator :: back) (before ++ first :: second :: after)
  aligned : before.length = front.length

/-- The positions of two neighbouring children cut the separators and children of their parent. -/
theorem ValidSubtree.pair (valid : ValidSubtree N t (l + 1) p) {keys : List (KeyHandle K)}
    {children : List PageId} (kind : (t.page p).kind = .internal keys children) {index : Nat}
    (slot : children[index]? = some first) (slot' : children[index + 1]? = some second)
    : ∃ separator front back before after,
        keys = front ++ separator :: back
        ∧ children = before ++ first :: second :: after
        ∧ front.length = index
        ∧ Pair N t l p first second separator front back before after := by
  obtain ⟨front, rest, before, others, rfl, rfl, rfl, aligned⟩ := valid.position kind slot
  have count := valid.aligned kind
  have next : (before ++ first :: others)[before.length + 1]? = others[0]? := by
    rw [List.getElem?_append_right (Nat.le_succ _)]
    simp
  rw [← aligned, next] at slot'
  match others, rest with
  | [], _ => cases slot'
  | _ :: _, [] =>
      simp only [List.append_nil, List.length_append, List.length_cons] at count
      omega
  | other :: after, separator :: back =>
      obtain rfl := Option.some.inj slot'
      exact ⟨separator, front, back, before, after, rfl, rfl, rfl, ⟨valid, kind, aligned⟩⟩

namespace Pair

variable {separator : KeyHandle K} {front back : List (KeyHandle K)} {before after : List PageId}
  (pair : Pair N t l p first second separator front back before after)

include pair

theorem first_mem : first ∈ t.children p := by simp [Tree.children, pair.kind]

theorem second_mem : second ∈ t.children p := by simp [Tree.children, pair.kind]

theorem different : first ≠ second := by
  have nodup := pair.valid.children_nodup
  rw [Tree.children, pair.kind] at nodup
  obtain ⟨-, rest, -⟩ := List.nodup_append.mp nodup
  intro same
  rw [same] at rest
  exact (List.nodup_cons.mp rest).1 List.mem_cons_self

/-- The two intervals meet at the separator. -/
theorem spans
    : Spans t.low t.high (front.getLast?.or (t.low p)) (some separator) first
      ∧ Spans t.low t.high (some separator) (back.head?.or (t.high p)) second := by
  obtain ⟨-, firstSpans, secondSpans, -⟩ :=
    (tiles_pair_iff pair.aligned).mp (pair.valid.tiles pair.kind)
  exact ⟨firstSpans, secondSpans⟩

/-- The contents of the two can be joined. -/
theorem joins : ∃ whole, Joins (t.page first).kind separator (t.page second).kind whole := by
  have firstValid := pair.valid.child pair.first_mem
  have secondValid := pair.valid.child pair.second_mem
  cases l with
  | zero =>
      obtain ⟨left, leftKind⟩ := firstValid.leaf
      obtain ⟨right, rightKind⟩ := secondValid.leaf
      rw [leftKind, rightKind]
      exact ⟨_, .leaf⟩
  | succ l =>
      obtain ⟨leftKeys, leftChildren, leftKind, leftTiles⟩ := firstValid.internal
      obtain ⟨rightKeys, rightChildren, rightKind, rightTiles⟩ := secondValid.internal
      rw [leftKind, rightKind]
      exact ⟨_, .internal leftTiles.length rightTiles.length⟩

/-- Joined, they are the content of both intervals. -/
theorem content {whole : NodeKind K V}
    (joins : Joins (t.page first).kind separator (t.page second).kind whole)
    : Content t.low t.high (t.low first) (t.high second) whole
      ∧ Below (t.low first) (t.high second)
      ∧ (whole.isLeaf ↔ l = 0) := by
  obtain ⟨firstSpans, secondSpans⟩ := pair.spans
  have firstOk := (pair.valid.child pair.first_mem).ok
  have secondOk := (pair.valid.child pair.second_mem).ok
  have firstContent := firstOk.content
  have secondContent := secondOk.content
  have lowBelow := firstOk.below
  have highBelow := secondOk.below
  rw [firstSpans.upper_eq] at firstContent lowBelow
  rw [secondSpans.lower_eq] at secondContent highBelow
  refine ⟨firstContent.join joins secondContent lowBelow highBelow, ?_, ?_⟩
  · intro a begins b ends
    exact lt_trans (lowBelow a begins separator rfl) (highBelow separator rfl b ends)
  · rw [← joins.isLeaf_eq.1]
    exact firstOk.leaf_iff

/-- What the pages are after the two and their parent were stored. -/
theorem pages (left right : Node K V) (keys : List (KeyHandle K)) (children : List PageId)
    : (t.rebalanced p first second left right keys children).page first = left
      ∧ (t.rebalanced p first second left right keys children).page second = right
      ∧ (t.rebalanced p first second left right keys children).page p
        = { t.page p with kind := .internal keys children }
      ∧ ∀ q, q ≠ p → q ∉ [first, second]
          → (t.rebalanced p first second left right keys children).page q = t.page q := by
  have notFirst : first ≠ p := pair.valid.child_ne pair.first_mem
  have notSecond : second ≠ p := pair.valid.child_ne pair.second_mem
  have apart := pair.different
  refine ⟨by simp [Tree.rebalanced, notFirst, apart], by simp [Tree.rebalanced, notSecond],
    by simp [Tree.rebalanced], ?_⟩
  intro q notParent notPair
  simp only [List.mem_cons, List.not_mem_nil, or_false, not_or] at notPair
  simp [Tree.rebalanced, notParent, notPair.1, notPair.2]

/-- The children of the two keep their fences. -/
theorem fences {t' : Tree K V} {whole : NodeKind K V}
    (joins : Joins (t.page first).kind separator (t.page second).kind whole)
    (other : ∀ q, q ≠ p → q ∉ [first, second] → t'.page q = t.page q)
    : ∀ child ∈ whole.children, t'.low child = t.low child ∧ t'.high child = t.high child := by
  intro child inside
  rw [← joins.children_eq] at inside
  have outside : child ≠ p ∧ child ∉ t.children p := by
    cases List.mem_append.mp inside with
    | inl left => exact (pair.valid.grandchild_ne pair.first_mem left).2
    | inr right => exact (pair.valid.grandchild_ne pair.second_mem right).2
  have page := other child outside.1 (by
    intro isPair
    simp only [List.mem_cons, List.not_mem_nil, or_false] at isPair
    cases isPair with
    | inl isFirst => exact outside.2 (isFirst ▸ pair.first_mem)
    | inr isSecond => exact outside.2 (isSecond ▸ pair.second_mem))
  exact ⟨congrArg Node.lowKey page, congrArg Node.highKey page⟩

theorem notLeaf {whole : NodeKind K V}
    (joins : Joins (t.page first).kind separator (t.page second).kind whole) (internal : 0 < l)
    : whole.isLeaf = false := by
  rw [Bool.eq_false_iff]
  intro leaf
  exact Nat.ne_of_gt internal ((pair.content joins).2.2.mp leaf)

end Pair

/-- The joined content of two pages is cut anew at the boundary. -/
structure CutAnew (N : Nat) (t : Tree K V) (first second : PageId) (separator boundary : KeyHandle K)
    (whole : NodeKind K V) (left right : Node K V)
    : Prop where
  joins : Joins (t.page first).kind separator (t.page second).kind whole
  joins' : Joins left.kind boundary right.kind whole
  starts : right.kind.StartsAt boundary
  leftLeast : left.kind.least N ≤ left.kind.size
  rightLeast : right.kind.least N ≤ right.kind.size
  leftSize : left.kind.size ≤ N
  rightSize : right.kind.size ≤ N
  leftLow : left.lowKey = t.low first
  leftHigh : left.highKey = some boundary
  rightLow : right.lowKey = some boundary
  rightHigh : right.highKey = t.high second

omit [TotalOrd K] in
/-- Borrowing changes the boundary between the two pages, and their contents. -/
theorem CutAnew.of_joins {separator boundary : KeyHandle K} {whole leftKind rightKind : NodeKind K V}
    (joins : Joins (t.page first).kind separator (t.page second).kind whole)
    (joins' : Joins leftKind boundary rightKind whole) (starts : rightKind.StartsAt boundary)
    (leftLeast : whole.least N ≤ leftKind.size) (rightLeast : whole.least N ≤ rightKind.size)
    (leftSize : leftKind.size ≤ N) (rightSize : rightKind.size ≤ N)
    : CutAnew N t first second separator boundary whole
        { t.page first with highKey := some boundary, kind := leftKind }
        { t.page second with lowKey := some boundary, kind := rightKind } := by
  obtain ⟨leftSame, rightSame⟩ := joins'.least_eq N
  exact {
    joins := joins
    joins' := joins'
    starts := starts
    leftLeast := leftSame ▸ leftLeast
    rightLeast := rightSame ▸ rightLeast
    leftSize := leftSize
    rightSize := rightSize
    leftLow := rfl
    leftHigh := rfl
    rightLow := rfl
    rightHigh := rfl
  }

namespace Pair

variable {separator boundary : KeyHandle K} {front back : List (KeyHandle K)}
  {before after : List PageId} {whole : NodeKind K V} {left right : Node K V}
  (pair : Pair N t l p first second separator front back before after)

include pair

/-- Borrowing gives both children anew. -/
theorem borrowed (three : 3 ≤ N)
    (cut : CutAnew N t first second separator boundary whole left right)
    : Regrafted N t
        (t.rebalanced p first second left right (front ++ boundary :: back)
          (before ++ first :: second :: after))
        l p front [separator] [boundary] back before [first, second] [first, second] after := by
  obtain ⟨pageLeft, pageRight, pageParent, other⟩ :=
    pair.pages left right (front ++ boundary :: back) (before ++ first :: second :: after)
  generalize
    t.rebalanced p first second left right (front ++ boundary :: back)
      (before ++ first :: second :: after)
    = t'
    at pageLeft pageRight pageParent other ⊢
  obtain ⟨content, -, leaf_iff⟩ := pair.content cut.joins
  have cutAt : CutAt t' first second (t.low first) (t.high second) boundary left.kind right.kind := {
    left := congrArg Node.kind pageLeft
    leftLow := (congrArg Node.lowKey pageLeft).trans cut.leftLow
    leftHigh := (congrArg Node.highKey pageLeft).trans cut.leftHigh
    right := congrArg Node.kind pageRight
    rightLow := (congrArg Node.lowKey pageRight).trans cut.rightLow
    rightHigh := (congrArg Node.highKey pageRight).trans cut.rightHigh
  }
  obtain ⟨leftOk, rightOk, tiles⟩ :=
    cutAt.ok content leaf_iff cut.joins' cut.starts
      (Nat.lt_of_lt_of_le (cut.joins'.least_pos three) cut.leftLeast) cut.leftSize cut.rightSize
      (pair.fences cut.joins other)
  obtain ⟨firstSpans, secondSpans⟩ := pair.spans
  rw [firstSpans.lower_eq, secondSpans.upper_eq] at tiles
  exact {
    kind := pair.kind
    parent := pageParent
    aligned := pair.aligned
    count := rfl
    full := by
      have full := pair.valid.ok.full
      rw [pair.kind] at full
      simpa [NodeKind.size] using full
    tiles := tiles
    newOk := by
      intro q isNew
      simp only [List.mem_cons, List.not_mem_nil, or_false] at isNew
      cases isNew with
      | inl isLeft =>
          rw [isLeft, pageLeft]
          exact ⟨cut.leftLeast, leftOk⟩
      | inr isRight =>
          rw [isRight, pageRight]
          exact ⟨cut.rightLeast, rightOk⟩
    children := by
      have same := cut.joins'.children_eq.trans cut.joins.children_eq.symm
      simpa [Tree.children, pageLeft, pageRight] using same
    entries := by
      have same := cut.joins'.entries_eq.trans cut.joins.entries_eq.symm
      simpa [Tree.entries, pageLeft, pageRight] using same
    other := fun q _ => other q
  }

/-- The old separator comes down as the boundary goes up, so that nothing changes in the order. -/
theorem borrowed_separators (three : 3 ≤ N)
    (cut : CutAnew N t first second separator boundary whole left right) (internal : 0 < l)
    : (t.rebalanced p first second left right (front ++ boundary :: back)
          (before ++ first :: second :: after)).separatorsBelow (l + 1) p
      = t.separatorsBelow (l + 1) p := by
  obtain ⟨m, level⟩ := Nat.exists_eq_succ_of_ne_zero (Nat.ne_of_gt internal)
  obtain ⟨pageLeft, pageRight, -, -⟩ :=
    pair.pages left right (front ++ boundary :: back) (before ++ first :: second :: after)
  refine (pair.borrowed three cut).separators pair.valid level (fun f => ?_)
  have old := cut.joins.weave_eq (pair.notLeaf cut.joins internal) f
  have new := cut.joins'.weave_eq (pair.notLeaf cut.joins internal) f
  simp only [List.map_cons, List.map_nil, pageLeft, pageRight, weave, List.flatten_cons,
    List.flatten_nil, List.append_nil]
  exact new.symm.trans old

/-- Merging gives the second child anew, and the first one is no page of the subtree any more. -/
theorem merged
    (joins : Joins (t.page first).kind separator (t.page second).kind whole)
    (least : whole.least N ≤ whole.size) (size : whole.size ≤ N) (isWhole : right.kind = whole)
    (low : right.lowKey = t.low first) (high : right.highKey = t.high second)
    : Regrafted N t
        (t.rebalanced p first second left right (front ++ back) (before ++ second :: after)) l p
        front [separator] [] back before [first, second] [second] after := by
  obtain ⟨-, pageRight, pageParent, other⟩ :=
    pair.pages left right (front ++ back) (before ++ second :: after)
  generalize
    t.rebalanced p first second left right (front ++ back) (before ++ second :: after) = t'
    at pageRight pageParent other ⊢
  obtain ⟨content, below, leaf_iff⟩ := pair.content joins
  obtain ⟨firstSpans, secondSpans⟩ := pair.spans
  have kind' : (t'.page second).kind = whole := (congrArg Node.kind pageRight).trans isWhole
  have low' : t'.low second = t.low first := (congrArg Node.lowKey pageRight).trans low
  have high' : t'.high second = t.high second := (congrArg Node.highKey pageRight).trans high
  exact {
    kind := pair.kind
    parent := pageParent
    aligned := pair.aligned
    count := rfl
    full := by
      have full := pair.valid.ok.full
      simp only [pair.kind, NodeKind.size, List.length_append, List.length_cons] at full
      simp only [List.length_append, List.length_nil]
      omega
    tiles := {
      lower_eq := low'.trans firstSpans.lower_eq
      upper_eq := high'.trans secondSpans.upper_eq
      below := by
        rw [← firstSpans.lower_eq, ← secondSpans.upper_eq]
        exact below
    }
    newOk := by
      intro q isNew
      rw [List.mem_singleton.mp isNew, kind']
      refine ⟨least, {
        content := ?_
        leaf_iff := by rw [kind']; exact leaf_iff
        below := by rw [low', high']; exact below
        full := by rw [kind']; exact size
      }⟩
      rw [kind', low', high']
      exact content.congr (pair.fences joins other)
    children := by simpa [Tree.children, kind'] using joins.children_eq.symm
    entries := by simpa [Tree.entries, kind'] using joins.entries_eq.symm
    other := fun q _ => other q
  }

/-- The separator between the two comes down, so that nothing changes in the order. -/
theorem merged_separators
    (joins : Joins (t.page first).kind separator (t.page second).kind whole)
    (least : whole.least N ≤ whole.size) (size : whole.size ≤ N) (isWhole : right.kind = whole)
    (low : right.lowKey = t.low first) (high : right.highKey = t.high second) (internal : 0 < l)
    : (t.rebalanced p first second left right (front ++ back)
          (before ++ second :: after)).separatorsBelow (l + 1) p
      = t.separatorsBelow (l + 1) p := by
  obtain ⟨m, level⟩ := Nat.exists_eq_succ_of_ne_zero (Nat.ne_of_gt internal)
  obtain ⟨-, pageRight, -, -⟩ :=
    pair.pages left right (front ++ back) (before ++ second :: after)
  refine (pair.merged joins least size isWhole low high).separators pair.valid level (fun f => ?_)
  have old := joins.weave_eq (pair.notLeaf joins internal) f
  simp only [List.map_cons, List.map_nil, pageRight, isWhole, weave, List.flatten_cons,
    List.flatten_nil, List.append_nil]
  exact old

/-- A key of the page that borrows from its left sibling stays with it. -/
theorem covers_second (cut : CutAnew N t first second separator boundary whole left right)
    (grows : (t.page second).kind.size < right.kind.size) {key : Query K}
    (covers : Covers (t.low second) (t.high second) key)
    : Covers right.lowKey right.highKey key := by
  obtain ⟨firstSpans, secondSpans⟩ := pair.spans
  have content := (pair.valid.child pair.first_mem).ok.content
  rw [firstSpans.upper_eq] at content
  have earlier := content.boundary_lt cut.joins cut.joins' cut.starts grows
  rw [cut.rightLow, cut.rightHigh]
  refine ⟨?_, covers.2⟩
  intro lowest isLowest
  obtain rfl := Option.some.inj isLowest
  exact key.not_lt_of_le (covers.1 separator secondSpans.lower_eq) (le_of_lt earlier)

/-- A key of the page that borrows from its right sibling stays with it. -/
theorem covers_first (cut : CutAnew N t first second separator boundary whole left right)
    (grows : (t.page first).kind.size < left.kind.size) {key : Query K}
    (covers : Covers (t.low first) (t.high first) key)
    : Covers left.lowKey left.highKey key := by
  obtain ⟨firstSpans, secondSpans⟩ := pair.spans
  have content := (pair.valid.child pair.second_mem).ok.content
  rw [secondSpans.lower_eq] at content
  have later := content.separator_le cut.joins cut.joins' cut.starts grows
  rw [cut.leftLow, cut.leftHigh]
  refine ⟨covers.1, ?_⟩
  intro bound isBound
  obtain rfl := Option.some.inj isBound
  exact key.lt_of_le (covers.2 separator firstSpans.upper_eq) later

/-- A key of either page belongs to both intervals together. -/
theorem covers_both {key : Query K}
    (covers : Covers (t.low first) (t.high first) key ∨ Covers (t.low second) (t.high second) key)
    : Covers (t.low first) (t.high second) key := by
  obtain ⟨firstSpans, secondSpans⟩ := pair.spans
  have below := (pair.valid.child pair.first_mem).ok.below
  have above := (pair.valid.child pair.second_mem).ok.below
  rw [firstSpans.upper_eq] at below
  rw [secondSpans.lower_eq] at above
  cases covers with
  | inl inFirst =>
      refine ⟨inFirst.1, fun bound isBound => ?_⟩
      exact key.lt_of_le (inFirst.2 separator firstSpans.upper_eq)
        (le_of_lt (above separator rfl bound isBound))
  | inr inSecond =>
      refine ⟨fun lowest isLowest => ?_, inSecond.2⟩
      exact key.not_lt_of_le (inSecond.1 separator secondSpans.lower_eq)
        (le_of_lt (below lowest isLowest separator rfl))

end Pair

-----------------------------------------------------------------------------------------
-- The cases of a removal
-----------------------------------------------------------------------------------------

/-- The subtree is valid again and has the same records and, above the leaves, the same
separators. The pair, which begins with the page `leftmost` now, has the same outer fences and
sizes that are allowed, and the removal can go on in `target`.
-/
structure Rebalances (N : Nat) (t t' : Tree K V) (l : Nat) (p first second leftmost target : PageId)
    : Prop where
  valid : ValidSubtree N t' (l + 1) p
  records : t'.recordsBelow (l + 1) p = t.recordsBelow (l + 1) p
  separators : 0 < l → t'.separatorsBelow (l + 1) p = t.separatorsBelow (l + 1) p
  low : t'.low leftmost = t.low first
  high : t'.high second = t.high second
  sizes
    : ∀ q,
        q = leftmost ∨ q = second
        → (t'.page q).minimum N ≤ (t'.page q).occupancy ∧ (t'.page q).occupancy ≤ N
  room : (t'.page target).minimum N < (t'.page target).occupancy

/-- A removal of the key goes on at the page `p`, and from there at the child with the index. -/
structure Reaches (N : Nat) (t : Tree K V) (p : PageId) (keys : List (KeyHandle K)) (key : Query K)
    (index : Nat)
    : Prop where
  routed : (t.page p).route key = .ok .here
  safe : ¬ ((t.page p).isRoot = false ∧ (t.page p).occupancy ≤ (t.page p).minimum N)
  found : InternalNode.childIndex keys key = .ok index

namespace Pair

variable {separator : KeyHandle K} {front back : List (KeyHandle K)} {before after : List PageId}
  (pair : Pair N t l p first second separator front back before after)

include pair

/-- Both pages have the same least size, and neither is below it. -/
theorem least {whole : NodeKind K V}
    (joins : Joins (t.page first).kind separator (t.page second).kind whole)
    : (t.page first).kind.least N = whole.least N
      ∧ (t.page second).kind.least N = whole.least N
      ∧ whole.least N ≤ (t.page first).kind.size
      ∧ whole.least N ≤ (t.page second).kind.size := by
  obtain ⟨leftSame, rightSame⟩ := joins.least_eq N
  have left := (pair.valid.2 first pair.first_mem).1
  have right := (pair.valid.2 second pair.second_mem).1
  rw [leftSame] at left
  rw [rightSame] at right
  exact ⟨leftSame, rightSame, left, right⟩

/-- What follows for the subtree when one of the two pages borrows. -/
theorem rebalances_borrowed (three : 3 ≤ N) {boundary : KeyHandle K} {whole : NodeKind K V}
    {left right : Node K V}
    (cut : CutAnew N t first second separator boundary whole left right) {target : PageId}
    (room
      : target = first ∧ left.kind.least N < left.kind.size
        ∨ target = second ∧ right.kind.least N < right.kind.size)
    : Rebalances N t
        (t.rebalanced p first second left right (front ++ boundary :: back)
          (before ++ first :: second :: after))
        l p first second first target := by
  obtain ⟨pageLeft, pageRight, -, -⟩ :=
    pair.pages left right (front ++ boundary :: back) (before ++ first :: second :: after)
  have graft := pair.borrowed three cut
  exact {
    valid := graft.valid' pair.valid
    records := graft.records pair.valid
    separators := pair.borrowed_separators three cut
    low := (congrArg Node.lowKey pageLeft).trans cut.leftLow
    high := (congrArg Node.highKey pageRight).trans cut.rightHigh
    sizes := by
      intro q either
      cases either with
      | inl isLeft =>
          rw [isLeft, pageLeft]
          exact ⟨cut.leftLeast, cut.leftSize⟩
      | inr isRight =>
          rw [isRight, pageRight]
          exact ⟨cut.rightLeast, cut.rightSize⟩
    room := by
      cases room with
      | inl isLeft =>
          rw [isLeft.1, pageLeft]
          exact isLeft.2
      | inr isRight =>
          rw [isRight.1, pageRight]
          exact isRight.2
  }

/-- A minimal page borrows from its left sibling. -/
theorem borrowFromLeft_exact (three : 3 ≤ N)
    (low : (t.page second).occupancy ≤ (t.page second).minimum N)
    (lends : (t.page first).minimum N < (t.page first).occupancy)
    : ∃ keys' left right,
        borrowFromLeft N (front ++ separator :: back) front.length (t.page first) (t.page second)
          = .ok (keys', left, right)
        ∧ let t' :=
            t.rebalanced p first second left right keys' (before ++ first :: second :: after)
          Rebalances N t t' l p first second first second
          ∧ ∀ key,
              Covers (t.low second) (t.high second) key
              → Covers (t'.low second) (t'.high second) key := by
  simp only [Node.occupancy_eq, Node.minimum_eq] at low lends
  obtain ⟨whole, joins⟩ := pair.joins
  obtain ⟨leftSame, rightSame, leftLeast, rightLeast⟩ := pair.least joins
  have bound := (pair.valid.child pair.first_mem).ok.full
  have small := whole.least_lt three
  obtain ⟨boundary, leftKind, rightKind, result, joins', starts, leftSize, rightSize⟩ :=
    borrowFromLeft_ok (N := N) front back joins (by omega) (by omega)
  have same := joins'.least_eq N
  have cut : CutAnew N t first second separator boundary whole _ _ :=
    .of_joins joins joins' starts (by omega) (by omega) (by omega) (by omega)
  refine ⟨_, _, _, result, pair.rebalances_borrowed three cut (.inr ⟨rfl, ?_⟩), ?_⟩
  · simp only
    omega
  · intro key covers
    obtain ⟨-, pageRight, -, -⟩ := pair.pages
      { t.page first with highKey := some boundary, kind := leftKind }
      { t.page second with lowKey := some boundary, kind := rightKind }
      (front ++ boundary :: back) (before ++ first :: second :: after)
    rw [Tree.low, Tree.high, pageRight]
    exact pair.covers_second cut (by simp only; omega) covers

/-- A minimal page borrows from its right sibling. -/
theorem borrowFromRight_exact (three : 3 ≤ N)
    (low : (t.page first).occupancy ≤ (t.page first).minimum N)
    (lends : (t.page second).minimum N < (t.page second).occupancy)
    : ∃ keys' left right,
        borrowFromRight N (front ++ separator :: back) front.length (t.page first) (t.page second)
          = .ok (keys', left, right)
        ∧ let t' :=
            t.rebalanced p first second left right keys' (before ++ first :: second :: after)
          Rebalances N t t' l p first second first first
          ∧ ∀ key,
              Covers (t.low first) (t.high first) key
              → Covers (t'.low first) (t'.high first) key := by
  simp only [Node.occupancy_eq, Node.minimum_eq] at low lends
  obtain ⟨whole, joins⟩ := pair.joins
  obtain ⟨leftSame, rightSame, leftLeast, rightLeast⟩ := pair.least joins
  have bound := (pair.valid.child pair.second_mem).ok.full
  have small := whole.least_lt three
  obtain ⟨boundary, leftKind, rightKind, result, joins', starts, leftSize, rightSize⟩ :=
    borrowFromRight_ok (N := N) front back joins three lends (by omega)
  have same := joins'.least_eq N
  have cut : CutAnew N t first second separator boundary whole _ _ :=
    .of_joins joins joins' starts (by omega) (by omega) (by omega) (by omega)
  refine ⟨_, _, _, result, pair.rebalances_borrowed three cut (.inl ⟨rfl, ?_⟩), ?_⟩
  · simp only
    omega
  · intro key covers
    obtain ⟨pageLeft, -, -, -⟩ := pair.pages
      { t.page first with highKey := some boundary, kind := leftKind }
      { t.page second with lowKey := some boundary, kind := rightKind }
      (front ++ boundary :: back) (before ++ first :: second :: after)
    rw [Tree.low, Tree.high, pageLeft]
    exact pair.covers_first cut (by simp only; omega) covers

/-- Two minimal pages are merged. -/
theorem mergeLeftIntoRight_exact (three : 3 ≤ N)
    (firstLow : (t.page first).occupancy ≤ (t.page first).minimum N)
    (secondLow : (t.page second).occupancy ≤ (t.page second).minimum N)
    : ∃ keys' children' left right repair,
        mergeLeftIntoRight N (front ++ separator :: back) (before ++ first :: second :: after)
            front.length first (t.page first) second (t.page second)
          = .ok (keys', children', left, right, repair)
        ∧ let t' := t.rebalanced p first second left right keys' children'
          Rebalances N t t' l p first second second second
          ∧ t'.forward first = some second
          ∧ ∀ key,
              Covers (t.low first) (t.high first) key ∨ Covers (t.low second) (t.high second) key
              → Covers (t'.low second) (t'.high second) key := by
  simp only [Node.occupancy_eq, Node.minimum_eq] at firstLow secondLow
  obtain ⟨whole, joins⟩ := pair.joins
  obtain ⟨-, -, leftLeast, rightLeast⟩ := pair.least joins
  obtain ⟨leftSame, rightSame⟩ := joins.least_eq N
  have fits := joins.size_le three firstLow secondLow
  have above := joins.least_lt three (by omega : _ ≤ (t.page first).kind.size) (by omega)
  refine ⟨_, _, _, _, _, mergeLeftIntoRight_ok front back joins fits pair.aligned, ?_⟩
  intro t'
  obtain ⟨pageLeft, pageRight, -, -⟩ := pair.pages
    { t.page first with lowKey := none, kind := .redirect second }
    {
      t.page second with
      lowKey := (t.page first).lowKey
      previous := (t.page first).previous
      kind := whole
    }
    (front ++ back) (before ++ second :: after)
  have left : t'.page first = _ := pageLeft
  have right : t'.page second = _ := pageRight
  have graft : Regrafted N t t' l p front [separator] [] back before [first, second] [second] after :=
    pair.merged joins (Nat.le_of_lt above) fits rfl rfl rfl
  refine ⟨?_, ?_, ?_⟩
  · exact {
      valid := graft.valid' pair.valid
      records := graft.records pair.valid
      separators := pair.merged_separators joins (Nat.le_of_lt above) fits rfl rfl rfl
      low := by rw [Tree.low, right]; rfl
      high := by rw [Tree.high, right]; rfl
      sizes := by
        intro q either
        rw [or_self] at either
        rw [either, right]
        exact ⟨Nat.le_of_lt above, fits⟩
      room := by
        rw [right]
        exact above
    }
  · rw [Tree.forward_eq, left]
    rfl
  · intro key covers
    rw [Tree.low, Tree.high, right]
    exact pair.covers_both covers

-----------------------------------------------------------------------------------------
-- What a removal does
-----------------------------------------------------------------------------------------

/-- A removal rebalances a minimal page that has a left sibling. -/
theorem removeAttempt_second {key : Query K}
    (reaches : Reaches N t p (front ++ separator :: back) key (front.length + 1))
    (low : (t.page second).occupancy ≤ (t.page second).minimum N)
    : Covers (t.low second) (t.high second) key
      ∧ t.removeAttempt N key p true
        = if (t.page first).minimum N < (t.page first).occupancy then do
            let (keys, left, right) ←
              borrowFromLeft N (front ++ separator :: back) front.length (t.page first)
                (t.page second)
            return (
              t.rebalanced p first second left right keys (before ++ first :: second :: after),
              .removeAttempt key second
            )
          else do
            let (keys, children, left, right, repair) ←
              mergeLeftIntoRight N (front ++ separator :: back) (before ++ first :: second :: after)
                front.length first (t.page first) second (t.page second)
            return (
              t.rebalanced p first second left right keys children,
              .mergeUpgrade key repair second [p, first, second]
            ) := by
  have firstSlot := Array.index_append before first (second :: after)
  have secondSlot := Array.index_append (before ++ [first]) second after
  simp only [List.append_assoc, List.singleton_append, List.length_append, List.length_singleton,
    pair.aligned] at firstSlot secondSlot
  have firstActive := (pair.valid.child pair.first_mem).isRedirect_eq_false
  have secondActive := (pair.valid.child pair.second_mem).isRedirect_eq_false
  have slot : (before ++ first :: second :: after)[front.length + 1]? = some second := by
    rw [← pair.aligned, List.getElem?_append_right (Nat.le_succ _)]
    simp
  refine ⟨pair.valid.covers_child pair.kind reaches.found slot
    (Node.covers_of_route reaches.routed), ?_⟩
  simp only [Tree.removeAttempt, reaches.routed, ok_bind, if_neg reaches.safe, pair.kind,
    reaches.found, Nat.zero_lt_succ, if_true, Nat.add_sub_cancel, firstSlot, secondSlot,
    firstActive, secondActive, Bool.false_eq_true, or_self, if_false, if_pos low]
  rfl

omit pair in
/-- A removal rebalances a minimal first child with its right sibling. -/
theorem removeAttempt_first {key : Query K}
    (pair : Pair N t l p first second separator [] back [] after)
    (reaches : Reaches N t p (separator :: back) key 0)
    (low : (t.page first).occupancy ≤ (t.page first).minimum N)
    : Covers (t.low first) (t.high first) key
      ∧ t.removeAttempt N key p true
        = if (t.page second).minimum N < (t.page second).occupancy then do
            let (keys, left, right) ←
              borrowFromRight N (separator :: back) 0 (t.page first) (t.page second)
            return (
              t.rebalanced p first second left right keys (first :: second :: after),
              .removeAttempt key first
            )
          else do
            let (keys, children, left, right, repair) ←
              mergeLeftIntoRight N (separator :: back) (first :: second :: after) 0 first
                (t.page first) second (t.page second)
            return (
              t.rebalanced p first second left right keys children,
              .mergeUpgrade key repair second [p, first, second]
            ) := by
  have firstActive := (pair.valid.child pair.first_mem).isRedirect_eq_false
  have secondActive := (pair.valid.child pair.second_mem).isRedirect_eq_false
  have kind := pair.kind
  simp only [List.nil_append] at kind
  have several : ¬ (first :: second :: after).length < 2 := by simp
  have firstSlot : Array.index (first :: second :: after) 0 = .ok first := rfl
  have secondSlot : Array.index (first :: second :: after) 1 = .ok second := rfl
  refine ⟨pair.valid.covers_child kind reaches.found rfl
    (Node.covers_of_route reaches.routed), ?_⟩
  simp only [Tree.removeAttempt, reaches.routed, ok_bind, if_neg reaches.safe, kind, reaches.found,
    Nat.lt_irrefl, if_false, if_neg several, firstSlot, secondSlot, firstActive, secondActive,
    Bool.false_eq_true, or_self, if_pos low]
  rfl

/-- Internal pages that borrow there and back are as they were. -/
theorem borrow_undone (three : 3 ≤ N) (internal : 0 < l)
    : ((t.page second).occupancy < N
        → ∃ keys' left right,
            borrowFromLeft N (front ++ separator :: back) front.length (t.page first)
                (t.page second)
              = .ok (keys', left, right)
            ∧ borrowFromRight N keys' front.length left right
              = .ok (front ++ separator :: back, t.page first, t.page second))
      ∧ ((t.page first).occupancy < N
          → ∃ keys' left right,
              borrowFromRight N (front ++ separator :: back) front.length (t.page first)
                  (t.page second)
                = .ok (keys', left, right)
              ∧ borrowFromLeft N keys' front.length left right
                = .ok (front ++ separator :: back, t.page first, t.page second)) := by
  obtain ⟨m, rfl⟩ := Nat.exists_eq_succ_of_ne_zero (Nat.ne_of_gt internal)
  obtain ⟨firstSpans, secondSpans⟩ := pair.spans
  have high : (t.page first).highKey = some separator := firstSpans.upper_eq
  have low : (t.page second).lowKey = some separator := secondSpans.lower_eq
  have leftLeast := (pair.valid.2 first pair.first_mem).1
  have rightLeast := (pair.valid.2 second pair.second_mem).1
  obtain ⟨leftKeys, leftChildren, leftKind, leftTiles⟩ :=
    (pair.valid.child pair.first_mem).internal
  obtain ⟨rightKeys, rightChildren, rightKind, rightTiles⟩ :=
    (pair.valid.child pair.second_mem).internal
  have leftCount := leftTiles.length
  have rightCount := rightTiles.length
  simp only [Node.occupancy_eq]
  rw [leftKind] at leftLeast ⊢
  rw [rightKind] at rightLeast ⊢
  simp only [NodeKind.least, NodeKind.size] at leftLeast rightLeast ⊢
  constructor
  · intro room
    obtain ⟨keys, boundary, rfl⟩ : ∃ keys boundary, leftKeys = keys ++ [boundary] :=
      ⟨_, _, (List.dropLast_append_getLast (List.ne_nil_of_length_pos (by omega))).symm⟩
    obtain ⟨children, child, rfl⟩ : ∃ children child, leftChildren = children ++ [child] :=
      ⟨_, _, (List.dropLast_append_getLast (List.ne_nil_of_length_pos (by omega))).symm⟩
    have full := (pair.valid.child pair.first_mem).ok.full
    rw [leftKind] at full
    simp only [NodeKind.size, List.length_append, List.length_singleton] at full leftCount
    refine ⟨_, _, _, borrowFromLeft_internal front back leftKind rightKind room (by omega), ?_⟩
    rw [borrowFromRight_internal front back rfl rfl (by omega) (by omega)]
    rw [Node.with_high_kind high leftKind, Node.with_low_kind low rightKind]
  · intro room
    obtain ⟨boundary, keys, rfl⟩ : ∃ boundary keys, rightKeys = boundary :: keys :=
      List.exists_cons_of_length_pos (by omega)
    obtain ⟨child, children, rfl⟩ : ∃ child children, rightChildren = child :: children :=
      List.exists_cons_of_length_pos (by omega)
    have full := (pair.valid.child pair.second_mem).ok.full
    rw [rightKind] at full
    simp only [NodeKind.size, List.length_cons] at full rightCount
    refine ⟨_, _, _, borrowFromRight_internal front back leftKind rightKind room (by omega), ?_⟩
    rw [borrowFromLeft_internal front back rfl rfl (by omega) (by omega)]
    rw [Node.with_high_kind high leftKind, Node.with_low_kind low rightKind]

end Pair

/-- The cases of a removal at a page of a valid subtree are exact for any two neighbouring
children. A minimal page that borrows from its sibling, or two minimal pages that are merged,
leave a valid subtree with the same height, records and, above the leaves, separators; the outer
fences and the allowed sizes of the pair stay; the removal goes on in a page above its minimum,
which its key belongs to; and internal pages that borrow there and back are as they were.
-/
theorem rebalance_exact (three : 3 ≤ N) (valid : ValidSubtree N t (l + 1) p)
    {keys : List (KeyHandle K)} {children : List PageId}
    (kind : (t.page p).kind = .internal keys children) {index : Nat}
    (slot : children[index]? = some first) (slot' : children[index + 1]? = some second)
    : ((t.page second).occupancy ≤ (t.page second).minimum N
        → (t.page first).minimum N < (t.page first).occupancy
        → ∃ keys' left right,
            borrowFromLeft N keys index (t.page first) (t.page second) = .ok (keys', left, right)
            ∧ let t' := t.rebalanced p first second left right keys' children
              Rebalances N t t' l p first second first second
              ∧ ∀ key,
                  Reaches N t p keys key (index + 1)
                  → t.removeAttempt N key p true = .ok (t', .removeAttempt key second)
                    ∧ Covers (t'.low second) (t'.high second) key)
      ∧ ((t.page first).occupancy ≤ (t.page first).minimum N
          → (t.page second).minimum N < (t.page second).occupancy
          → ∃ keys' left right,
              borrowFromRight N keys index (t.page first) (t.page second) = .ok (keys', left, right)
              ∧ let t' := t.rebalanced p first second left right keys' children
                Rebalances N t t' l p first second first first
                ∧ (∀ key,
                    Covers (t.low first) (t.high first) key
                    → Covers (t'.low first) (t'.high first) key)
                ∧ ∀ key,
                    Reaches N t p keys key index
                    → index = 0
                    → t.removeAttempt N key p true = .ok (t', .removeAttempt key first)
                      ∧ Covers (t'.low first) (t'.high first) key)
      ∧ ((t.page first).occupancy ≤ (t.page first).minimum N
          → (t.page second).occupancy ≤ (t.page second).minimum N
          → ∃ keys' children' left right repair,
              mergeLeftIntoRight N keys children index first (t.page first) second (t.page second)
                = .ok (keys', children', left, right, repair)
              ∧ let t' := t.rebalanced p first second left right keys' children'
                Rebalances N t t' l p first second second second
                ∧ ∀ key,
                    Reaches N t p keys key (index + 1) ∨ index = 0 ∧ Reaches N t p keys key 0
                    → t.removeAttempt N key p true
                        = .ok (t', .mergeUpgrade key repair second [p, first, second])
                      ∧ Covers (t'.low second) (t'.high second) key)
      ∧ (0 < l
          → (t.page second).occupancy < N
          → ∃ keys' left right,
              borrowFromLeft N keys index (t.page first) (t.page second) = .ok (keys', left, right)
              ∧ borrowFromRight N keys' index left right
                = .ok (keys, t.page first, t.page second))
      ∧ (0 < l
          → (t.page first).occupancy < N
          → ∃ keys' left right,
              borrowFromRight N keys index (t.page first) (t.page second) = .ok (keys', left, right)
              ∧ borrowFromLeft N keys' index left right
                = .ok (keys, t.page first, t.page second)) := by
  obtain ⟨separator, front, back, before, after, rfl, rfl, rfl, pair⟩ :=
    valid.pair kind slot slot'
  refine ⟨?_, ?_, ?_, fun internal => (pair.borrow_undone three internal).1,
    fun internal => (pair.borrow_undone three internal).2⟩
  · intro low lends
    obtain ⟨keys', left, right, result, exact', stays⟩ := pair.borrowFromLeft_exact three low lends
    refine ⟨keys', left, right, result, exact', fun key reaches => ?_⟩
    obtain ⟨covers, removes⟩ := pair.removeAttempt_second reaches low
    refine ⟨?_, stays key covers⟩
    rw [removes, if_pos lends, result]
    rfl
  · intro low lends
    obtain ⟨keys', left, right, result, exact', stays⟩ := pair.borrowFromRight_exact three low lends
    refine ⟨keys', left, right, result, exact', stays, fun key reaches isFirst => ?_⟩
    obtain rfl := List.length_eq_zero_iff.mp isFirst
    obtain rfl := List.length_eq_zero_iff.mp (pair.aligned.trans isFirst)
    obtain ⟨covers, removes⟩ := pair.removeAttempt_first reaches low
    refine ⟨?_, stays key covers⟩
    rw [removes, if_pos lends]
    simp only [List.nil_append, List.length_nil] at result
    rw [result]
    rfl
  · intro firstLow secondLow
    obtain ⟨keys', children', left, right, repair, result, exact', -, stays⟩ :=
      pair.mergeLeftIntoRight_exact three firstLow secondLow
    refine ⟨keys', children', left, right, repair, result, exact', fun key either => ?_⟩
    cases either with
    | inl reaches =>
        obtain ⟨covers, removes⟩ := pair.removeAttempt_second reaches secondLow
        refine ⟨?_, stays key (.inr covers)⟩
        rw [removes, if_neg (Nat.not_lt.mpr firstLow), result]
        rfl
    | inr reaches =>
        obtain ⟨isFirst, reaches⟩ := reaches
        obtain rfl := List.length_eq_zero_iff.mp isFirst
        obtain rfl := List.length_eq_zero_iff.mp (pair.aligned.trans isFirst)
        obtain ⟨covers, removes⟩ := pair.removeAttempt_first reaches firstLow
        refine ⟨?_, stays key (.inl covers)⟩
        rw [removes, if_neg (Nat.not_lt.mpr secondLow)]
        simp only [List.nil_append, List.length_nil] at result
        rw [result]
        rfl

/-- After four insertions the first leaf is minimal at capacity three, and the second one lends. -/
theorem rebalance_exact_first
    : ∃ t : Tree Nat Nat,
        (t.page t.root).kind = .internal [⟨1, 20⟩] [0, 2]
        ∧ (t.page 0).occupancy = 1
        ∧ (t.page 2).occupancy = 3
        ∧ ∃ l keys' left right,
            borrowFromRight 3 [⟨1, 20⟩] 0 (t.page 0) (t.page 2) = .ok (keys', left, right)
            ∧ Rebalances 3 t (t.rebalanced t.root 0 2 left right keys' [0, 2]) l t.root 0 2 0 0 := by
  have plays : ((System.fresh : System Unit Nat Nat).replay .smallest [()]
      ([10, 20, 30].flatMap (fun key => Move.whole () (.insert key key) 3)
        ++ Move.whole () (.insert 40 40) 8)).map
        (fun played =>
          (played.2.isQuiet [()], (played.2.tree.page played.2.tree.root).kind,
            (played.2.tree.page 0).occupancy, (played.2.tree.page 2).occupancy,
            (played.2.tree.page 0).minimum 3, (played.2.tree.page 2).minimum 3))
      = some (true, .internal [⟨1, 20⟩] [0, 2], 1, 3, 1, 1) := by
    decide +kernel
  obtain ⟨⟨trace, s⟩, replayed, checks⟩ := Option.map_eq_some_iff.mp plays
  simp only [Prod.mk.injEq] at checks
  obtain ⟨quiet, kind, first, second, firstLeast, secondLeast⟩ := checks
  obtain ⟨shape, quiescent⟩ := single_thread_quiescent
    (System.reachable_of_replay (fun _ => List.mem_cons_self) replayed)
    (System.idle_of_isQuiet (fun _ => List.mem_cons_self) quiet ())
  have inv : Inv 3 s.tree shape := quiescent.inv
  obtain ⟨l, height⟩ := inv.pos_of_internal inv.root_mem kind
  have member := inv.root_mem
  rw [height] at member
  have lends : (s.tree.page 2).minimum 3 < (s.tree.page 2).occupancy := by
    show _ < (s.tree.page 2).occupancy
    rw [show (s.tree.page 2).minimum 3 = 1 from secondLeast,
      show (s.tree.page 2).occupancy = 3 from second]
    decide
  obtain ⟨-, borrows, -⟩ :=
    rebalance_exact (by decide) (inv.validSubtree member) kind
      (show ([0, 2] : List PageId)[0]? = some 0 from rfl)
      (show ([0, 2] : List PageId)[0 + 1]? = some 2 from rfl)
  obtain ⟨keys', left, right, result, rebalances, -⟩ :=
    borrows (Nat.le_of_eq (first.trans firstLeast.symm)) lends
  exact ⟨s.tree, kind, first, second, l, keys', left, right, result, rebalances⟩

end BLink
