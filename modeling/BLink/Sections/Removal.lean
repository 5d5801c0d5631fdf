import BLink.Sections.Insertion

/-! The sections of the structural removal never fail, and have the effects listed for them.
-/

namespace BLink

open Library

variable {K V : Type} [TotalOrd K]

variable {N : Nat} {t : Tree K V} {shape : Shape} {l : Nat} {p first second : PageId}
  {separator : KeyHandle K} {front back : List (KeyHandle K)} {before after : List PageId}

theorem shrinkRoot_ok (inv : Inv N t shape) (key : Query K) (result : Option (Option V))
    (latched : Bool)
    : ∃ t' pc',
        t.shrinkRoot key result = .ok (t', pc')
        ∧ Removes N t shape latched (.shrinkRoot key result) t' pc' := by
  have active := inv.root_active.2
  rw [Tree.shrinkRoot]
  cases kind : (t.page t.root).kind with
  | redirect target => rw [Tree.forward_eq, kind] at active; cases active
  | leaf entries => exact ⟨_, _, rfl, .rootStays (by simp [kind])⟩
  | internal keys children =>
      cases keys with
      | cons separator keys => exact ⟨_, _, rfl, .rootStays (by simp [kind])⟩
      | nil =>
          have count := inv.aligned inv.root_mem kind
          obtain ⟨child, rfl⟩ := List.length_eq_one_iff.mp count
          obtain ⟨m, height⟩ := inv.pos_of_internal inv.root_mem kind
          have childMember : child ∈ shape.row m :=
            inv.child_mem (height ▸ inv.root_mem) kind (List.mem_singleton_self child)
          have notRoot : t.root ≠ child := (inv.ne_root childMember (by omega)).symm
          refine ⟨_, _, rfl, @Removes.rootCollapses _ _ _ _ _ _ _ _ _ child _ ?_⟩
          exact {
            kind := kind
            root := rfl
            len := rfl
            pages := rfl
            new := by simp [notRoot.symm]
            old := by simp
            other := fun q notChild notOld => by simp [notChild, notOld]
          }

-----------------------------------------------------------------------------------------
-- Adjacent children
-----------------------------------------------------------------------------------------

/-- `first` and `second` are adjacent children of `p`, with `separator` between them. -/
structure Adjacent (t : Tree K V) (shape : Shape) (l : Nat) (p first second : PageId)
    (separator : KeyHandle K) (front back : List (KeyHandle K)) (before after : List PageId)
    : Prop where
  member : p ∈ shape.row (l + 1)
  kind
    : (t.page p).kind
      = .internal (front ++ separator :: back) (before ++ first :: second :: after)
  aligned : before.length = front.length

/-- The tree after two adjacent children and then their parent were stored. -/
def Tree.rebalanced (t : Tree K V) (p first second : PageId) (left right : Node K V)
    (keys : List (KeyHandle K)) (children : List PageId)
    : Tree K V :=
  ((t.setPage first left).setPage second right).setPage p
    { t.page p with kind := .internal keys children }

namespace Adjacent

theorem first_mem (adjacent : Adjacent t shape l p first second separator front back before after)
    (inv : Inv N t shape)
    : first ∈ shape.row l :=
  inv.child_mem adjacent.member adjacent.kind (by simp)

theorem second_mem
    (adjacent : Adjacent t shape l p first second separator front back before after)
    (inv : Inv N t shape)
    : second ∈ shape.row l :=
  inv.child_mem adjacent.member adjacent.kind (by simp)

/-- The three pages that a rebalancing section latches are different. -/
theorem different (adjacent : Adjacent t shape l p first second separator front back before after)
    (inv : Inv N t shape)
    : p ≠ first ∧ p ≠ second ∧ first ≠ second := by
  have above {child : PageId} (member : child ∈ shape.row l) : p ≠ child :=
    inv.ne_of_level adjacent.member member (by omega)
  have nodup := inv.children_nodup adjacent.member
  rw [Tree.children, adjacent.kind, NodeKind.children] at nodup
  obtain ⟨-, rest, -⟩ := List.nodup_append.mp nodup
  refine ⟨above (adjacent.first_mem inv), above (adjacent.second_mem inv), ?_⟩
  rintro rfl
  simp at rest

/-- Borrowing between the two moves their boundary. -/
theorem shift (adjacent : Adjacent t shape l p first second separator front back before after)
    (inv : Inv N t shape) {boundary : KeyHandle K} {whole leftKind rightKind : NodeKind K V}
    (joins : Joins (t.page first).kind separator (t.page second).kind whole)
    (joins' : Joins leftKind boundary rightKind whole) (starts : rightKind.StartsAt boundary)
    (leftLeast : leftKind.least N ≤ leftKind.size)
    (rightLeast : rightKind.least N ≤ rightKind.size)
    (leftSize : leftKind.size ≤ N) (rightSize : rightKind.size ≤ N)
    : ShiftBoundary N t
        (t.rebalanced p first second
          { t.page first with highKey := some boundary, kind := leftKind }
          { t.page second with lowKey := some boundary, kind := rightKind }
          (front ++ boundary :: back) (before ++ first :: second :: after))
        p first second separator boundary whole leftKind rightKind front back before after := by
  obtain ⟨notFirst, notSecond, apart⟩ := adjacent.different inv
  exact {
    kind := adjacent.kind
    aligned := adjacent.aligned
    joins := joins
    joins' := joins'
    starts := starts
    leftLeast := leftLeast
    rightLeast := rightLeast
    leftSize := leftSize
    rightSize := rightSize
    root := rfl
    len := rfl
    pages := rfl
    left := by simp [Tree.rebalanced, notFirst.symm, apart]
    right := by simp [Tree.rebalanced, notSecond.symm]
    parent := by simp [Tree.rebalanced]
    other := fun q notParent notLeft notRight => by
      simp [Tree.rebalanced, notParent, notLeft, notRight]
  }

/-- Siblings have the same least size, and neither is below it. -/
theorem least (adjacent : Adjacent t shape l p first second separator front back before after)
    (inv : Inv N t shape) {whole : NodeKind K V}
    (joins : Joins (t.page first).kind separator (t.page second).kind whole)
    : (t.page first).kind.least N = whole.least N
      ∧ (t.page second).kind.least N = whole.least N
      ∧ whole.least N ≤ (t.page first).kind.size
      ∧ whole.least N ≤ (t.page second).kind.size := by
  obtain ⟨leftSame, rightSame⟩ := joins.least_eq N
  have lower := inv.le_height adjacent.member
  have firstMember := adjacent.first_mem inv
  have secondMember := adjacent.second_mem inv
  have left := (inv.page l first firstMember).minimum (inv.ne_root firstMember (by omega))
  have right := (inv.page l second secondMember).minimum (inv.ne_root secondMember (by omega))
  rw [leftSame] at left
  rw [rightSame] at right
  exact ⟨leftSame, rightSame, left, right⟩

theorem borrowFromLeft_ok
    (adjacent : Adjacent t shape l p first second separator front back before after)
    (inv : Inv N t shape) (three : 3 ≤ N)
    (low : (t.page second).kind.size ≤ (t.page second).kind.least N)
    (lends : (t.page first).kind.least N < (t.page first).kind.size)
    : ∃ boundary whole leftKind rightKind,
        borrowFromLeft N (front ++ separator :: back) front.length (t.page first)
            (t.page second)
          = .ok (
              front ++ boundary :: back,
              { t.page first with highKey := some boundary, kind := leftKind },
              { t.page second with lowKey := some boundary, kind := rightKind }
            )
        ∧ ShiftBoundary N t
            (t.rebalanced p first second
              { t.page first with highKey := some boundary, kind := leftKind }
              { t.page second with lowKey := some boundary, kind := rightKind }
              (front ++ boundary :: back) (before ++ first :: second :: after))
            p first second separator boundary whole leftKind rightKind front back before after
        ∧ rightKind.size = (t.page second).kind.size + 1 := by
  obtain ⟨whole, joins⟩ :=
    inv.joins (adjacent.first_mem inv) (adjacent.second_mem inv) separator
  obtain ⟨leftSame, rightSame, leftLeast, rightLeast⟩ := adjacent.least inv joins
  have bound := (inv.page l first (adjacent.first_mem inv)).full
  have room := whole.least_lt three
  obtain ⟨boundary, leftKind, rightKind, result, joins', starts, leftSize, rightSize⟩ :=
    BLink.borrowFromLeft_ok (N := N) front back joins (by omega) (by omega)
  have same := joins'.least_eq N
  exact ⟨boundary, whole, leftKind, rightKind, result,
    adjacent.shift inv joins joins' starts (by omega) (by omega) (by omega) (by omega), rightSize⟩

theorem borrowFromRight_ok
    (adjacent : Adjacent t shape l p first second separator front back before after)
    (inv : Inv N t shape) (three : 3 ≤ N)
    (low : (t.page first).kind.size ≤ (t.page first).kind.least N)
    (lends : (t.page second).kind.least N < (t.page second).kind.size)
    : ∃ boundary whole leftKind rightKind,
        borrowFromRight N (front ++ separator :: back) front.length (t.page first)
            (t.page second)
          = .ok (
              front ++ boundary :: back,
              { t.page first with highKey := some boundary, kind := leftKind },
              { t.page second with lowKey := some boundary, kind := rightKind }
            )
        ∧ ShiftBoundary N t
            (t.rebalanced p first second
              { t.page first with highKey := some boundary, kind := leftKind }
              { t.page second with lowKey := some boundary, kind := rightKind }
              (front ++ boundary :: back) (before ++ first :: second :: after))
            p first second separator boundary whole leftKind rightKind front back before after
        ∧ leftKind.size = (t.page first).kind.size + 1 := by
  obtain ⟨whole, joins⟩ :=
    inv.joins (adjacent.first_mem inv) (adjacent.second_mem inv) separator
  obtain ⟨leftSame, rightSame, leftLeast, rightLeast⟩ := adjacent.least inv joins
  have bound := (inv.page l second (adjacent.second_mem inv)).full
  have room := whole.least_lt three
  obtain ⟨boundary, leftKind, rightKind, result, joins', starts, leftSize, rightSize⟩ :=
    BLink.borrowFromRight_ok (N := N) front back joins three lends (by omega)
  have same := joins'.least_eq N
  exact ⟨boundary, whole, leftKind, rightKind, result,
    adjacent.shift inv joins joins' starts (by omega) (by omega) (by omega) (by omega), leftSize⟩

theorem mergeLeftIntoRight_ok
    (adjacent : Adjacent t shape l p first second separator front back before after)
    (inv : Inv N t shape) (three : 3 ≤ N)
    (safe : ¬ ((t.page p).isRoot = false ∧ (t.page p).occupancy ≤ (t.page p).minimum N))
    (leftLow : (t.page first).kind.size ≤ (t.page first).kind.least N)
    (rightLow : (t.page second).kind.size ≤ (t.page second).kind.least N)
    : ∃ whole,
        mergeLeftIntoRight N (front ++ separator :: back)
            (before ++ first :: second :: after) front.length first (t.page first) second
            (t.page second)
          = .ok (
              front ++ back,
              before ++ second :: after,
              { t.page first with lowKey := none, kind := .redirect second },
              {
                t.page second with
                lowKey := (t.page first).lowKey
                previous := (t.page first).previous
                kind := whole
              },
              {
                predecessor := (t.page first).previous
                retired := first
                survivor := second
              }
            )
        ∧ MergeSiblings N t
            (t.rebalanced p first second
              { t.page first with lowKey := none, kind := .redirect second }
              {
                t.page second with
                lowKey := (t.page first).lowKey
                previous := (t.page first).previous
                kind := whole
              }
              (front ++ back) (before ++ second :: after))
            p first second separator whole front back before after := by
  obtain ⟨whole, joins⟩ :=
    inv.joins (adjacent.first_mem inv) (adjacent.second_mem inv) separator
  have fits := joins.size_le three leftLow rightLow
  obtain ⟨notFirst, notSecond, apart⟩ := adjacent.different inv
  refine ⟨whole, BLink.mergeLeftIntoRight_ok front back joins fits adjacent.aligned, ?_⟩
  exact {
    kind := adjacent.kind
    aligned := adjacent.aligned
    lends := by
      intro notRoot
      by_contra few
      refine safe ⟨inv.isRoot_eq_false adjacent.member notRoot, ?_⟩
      rw [Node.occupancy_eq, Node.minimum_eq, adjacent.kind]
      simp only [NodeKind.size, NodeKind.least, List.length_append, List.length_cons] at few ⊢
      omega
    joins := joins
    fits := fits
    root := rfl
    len := rfl
    pages := rfl
    left := by simp [Tree.rebalanced, notFirst.symm, apart]
    right := by simp [Tree.rebalanced, notSecond.symm]
    parent := by simp [Tree.rebalanced]
    other := fun q notParent notLeft notRight => by
      simp [Tree.rebalanced, notParent, notLeft, notRight]
  }

end Adjacent

/-- The boundary moves left when the right sibling borrows. -/
theorem ShiftBoundary.boundary_lt {t' : Tree K V} {boundary : KeyHandle K}
    {whole leftKind rightKind : NodeKind K V}
    (shift
      : ShiftBoundary N t t' p first second separator boundary whole leftKind rightKind front
          back before after)
    (inv : Inv N t shape) (member : p ∈ shape.row (l + 1))
    (grows : rightKind.size = (t.page second).kind.size + 1)
    : boundary < separator := by
  obtain ⟨highFirst, -, -⟩ := inv.exists_separator member shift.kind shift.aligned
  have content := (inv.page l first (inv.child_mem member shift.kind (by simp))).content
  rw [highFirst] at content
  exact content.boundary_lt shift.joins shift.joins' shift.starts (by omega)

/-- A key of the page that borrows from its left sibling stays with it. -/
theorem ShiftBoundary.covers_second {t' : Tree K V} {boundary : KeyHandle K}
    {whole leftKind rightKind : NodeKind K V}
    (shift
      : ShiftBoundary N t t' p first second separator boundary whole leftKind rightKind front
          back before after)
    (inv : Inv N t shape) (member : p ∈ shape.row (l + 1))
    (grows : rightKind.size = (t.page second).kind.size + 1) {key : Query K}
    (covers : Covers (t.low second) (t.high second) key)
    : Covers (t'.low second) (t'.high second) key := by
  obtain ⟨-, lowSecond, -⟩ := inv.exists_separator member shift.kind shift.aligned
  have earlier := shift.boundary_lt inv member grows
  simp only [Tree.low, Tree.high, shift.right]
  refine ⟨?_, covers.2⟩
  intro lowest isLowest
  obtain rfl := Option.some.inj isLowest
  exact key.not_lt_of_le (covers.1 separator lowSecond) (le_of_lt earlier)

/-- A key of the page that borrows from its right sibling stays with it. -/
theorem ShiftBoundary.covers_first {t' : Tree K V} {boundary : KeyHandle K}
    {whole leftKind rightKind : NodeKind K V}
    (shift
      : ShiftBoundary N t t' p first second separator boundary whole leftKind rightKind front
          back before after)
    (inv : Inv N t shape) (member : p ∈ shape.row (l + 1))
    (grows : leftKind.size = (t.page first).kind.size + 1) {key : Query K}
    (covers : Covers (t.low first) (t.high first) key)
    : Covers (t'.low first) (t'.high first) key := by
  obtain ⟨highFirst, lowSecond, -⟩ := inv.exists_separator member shift.kind shift.aligned
  have content := (inv.page l second (inv.child_mem member shift.kind (by simp))).content
  rw [lowSecond] at content
  have later := content.separator_le shift.joins shift.joins' shift.starts (by omega)
  simp only [Tree.low, Tree.high, shift.left]
  refine ⟨covers.1, ?_⟩
  intro bound isBound
  obtain rfl := Option.some.inj isBound
  exact key.lt_of_le (covers.2 separator highFirst) later

/-- A key of either merged page belongs to the survivor. -/
theorem MergeSiblings.covers {t' : Tree K V} {whole : NodeKind K V}
    (merge : MergeSiblings N t t' p first second separator whole front back before after)
    (inv : Inv N t shape) (member : p ∈ shape.row (l + 1)) {key : Query K}
    (covers
      : Covers (t.low first) (t.high first) key ∨ Covers (t.low second) (t.high second) key)
    : Covers (t'.low second) (t'.high second) key := by
  obtain ⟨highFirst, lowSecond, below⟩ :=
    inv.exists_separator member merge.kind merge.aligned
  have above := (inv.page l second (inv.child_mem member merge.kind (by simp))).below
  rw [lowSecond] at above
  simp only [Tree.low, Tree.high, merge.right]
  cases covers with
  | inl inFirst =>
      refine ⟨inFirst.1, ?_⟩
      intro bound isBound
      exact key.lt_of_le (inFirst.2 separator highFirst)
        (le_of_lt (above separator rfl bound isBound))
  | inr inSecond =>
      refine ⟨?_, inSecond.2⟩
      intro lowest isLowest
      exact key.not_lt_of_le (inSecond.1 separator lowSecond)
        (le_of_lt (below lowest isLowest separator rfl))

-----------------------------------------------------------------------------------------
-- One pass of the removal
-----------------------------------------------------------------------------------------

/-- The pass at a leaf removes the record, or misses it. -/
theorem removeLeaf_ok (inv : Inv N t shape) {key : Query K} {latched : Bool}
    {entries : List (Entry K V)} (owns : Owns t shape p key entries)
    (routed : (t.page p).route key = .ok .here)
    (safe : ¬ ((t.page p).isRoot = false ∧ (t.page p).occupancy ≤ (t.page p).minimum N))
    : ∃ t' pc',
        t.removeAttempt N key p latched = .ok (t', pc')
        ∧ Removes N t shape latched (.removeAttempt key p) t' pc' := by
  obtain ⟨sorted, -⟩ := inv.content_leaf owns.member owns.kind
  have kind := owns.kind
  simp only [Tree.removeAttempt, routed, ok_bind, if_neg safe, kind]
  rcases LeafNode.search_cases sorted key with
    ⟨front, entry, back, rfl, found, equal, -, -⟩ | ⟨front, back, rfl, missing, below, above⟩
  · obtain ⟨t', result, removes, updated⟩ := removeRecord_ok inv owns equal (by
      intro notRoot
      by_contra small
      refine safe ⟨inv.isRoot_eq_false owns.member notRoot, ?_⟩
      rw [Node.occupancy_eq, Node.minimum_eq, kind]
      exact Nat.le_of_not_lt small)
    exact ⟨_, _, by simp only [found, result, ok_bind, pure_eq_ok], .done owns removes updated⟩
  · exact ⟨_, _, by simp only [missing, pure_eq_ok], .missing owns (lookup_missing below above)⟩

/-- The pass at an internal page whose key belongs to a child with a left sibling. -/
theorem removeSecond_ok (inv : Inv N t shape) (three : 3 ≤ N) {key : Query K} {latched : Bool}
    (adjacent : Adjacent t shape l p first second separator front back before after)
    (covers : Covers (t.low p) (t.high p) key)
    (inner : Covers (t.low second) (t.high second) key)
    (routed : (t.page p).route key = .ok .here)
    (safe : ¬ ((t.page p).isRoot = false ∧ (t.page p).occupancy ≤ (t.page p).minimum N))
    (index : InternalNode.childIndex (front ++ separator :: back) key = .ok (front.length + 1))
    : ∃ t' pc',
        t.removeAttempt N key p latched = .ok (t', pc')
        ∧ Removes N t shape latched (.removeAttempt key p) t' pc' := by
  have firstSlot := Array.index_append before first (second :: after)
  have secondSlot := Array.index_append (before ++ [first]) second after
  simp only [List.append_assoc, List.singleton_append, List.length_append, List.length_singleton,
    adjacent.aligned] at firstSlot secondSlot
  have firstActive := inv.isRedirect_eq_false (adjacent.first_mem inv)
  have secondActive := inv.isRedirect_eq_false (adjacent.second_mem inv)
  simp only [Tree.removeAttempt, routed, ok_bind, if_neg safe, adjacent.kind, index,
    Nat.zero_lt_succ, if_true, Nat.add_sub_cancel, firstSlot, secondSlot]
  by_cases locked : latched = false
  · refine ⟨_, _, by rw [if_pos locked]; rfl, .retry (fun isLatched => ?_)⟩
    rw [locked] at isLatched
    cases isLatched
  simp only [if_neg locked, firstActive, secondActive, Bool.false_eq_true, or_self, if_false]
  by_cases low : (t.page second).occupancy ≤ (t.page second).minimum N
  · by_cases lends : (t.page first).minimum N < (t.page first).occupancy
    · obtain ⟨boundary, whole, leftKind, rightKind, result, shift, grows⟩ :=
        adjacent.borrowFromLeft_ok inv three low lends
      exact ⟨_, _, by simp only [if_pos low, if_pos lends, result, ok_bind]; rfl,
        .borrowLeft adjacent.member shift grows
          (shift.covers_second inv adjacent.member grows inner)⟩
    · obtain ⟨whole, result, merge⟩ :=
        adjacent.mergeLeftIntoRight_ok inv three safe (Nat.le_of_not_lt lends) low
      exact ⟨_, _, by simp only [if_pos low, if_neg lends, result, ok_bind]; rfl,
        .merge adjacent.member merge (merge.covers inv adjacent.member (.inr inner))⟩
  · exact ⟨_, _, by rw [if_neg low]; rfl,
      .move (.child ⟨adjacent.member, covers⟩ ⟨adjacent.second_mem inv, inner⟩
        (Nat.lt_of_not_le low))⟩

/-- The pass at an internal page whose key belongs to its first child. -/
theorem removeFirst_ok (inv : Inv N t shape) (three : 3 ≤ N) {key : Query K} {latched : Bool}
    (adjacent : Adjacent t shape l p first second separator [] back [] after)
    (covers : Covers (t.low p) (t.high p) key)
    (inner : Covers (t.low first) (t.high first) key)
    (routed : (t.page p).route key = .ok .here)
    (safe : ¬ ((t.page p).isRoot = false ∧ (t.page p).occupancy ≤ (t.page p).minimum N))
    (index : InternalNode.childIndex (separator :: back) key = .ok 0)
    : ∃ t' pc',
        t.removeAttempt N key p latched = .ok (t', pc')
        ∧ Removes N t shape latched (.removeAttempt key p) t' pc' := by
  have firstActive := inv.isRedirect_eq_false (adjacent.first_mem inv)
  have secondActive := inv.isRedirect_eq_false (adjacent.second_mem inv)
  have kind := adjacent.kind
  simp only [List.nil_append] at kind
  have several : ¬ (first :: second :: after).length < 2 := by simp
  have firstSlot : Array.index (first :: second :: after) 0 = .ok first := rfl
  have secondSlot : Array.index (first :: second :: after) 1 = .ok second := rfl
  simp only [Tree.removeAttempt, routed, ok_bind, if_neg safe, kind, index, Nat.lt_irrefl,
    if_false, if_neg several, firstSlot, secondSlot]
  by_cases locked : latched = false
  · refine ⟨_, _, by rw [if_pos locked]; rfl, .retry (fun isLatched => ?_)⟩
    rw [locked] at isLatched
    cases isLatched
  simp only [if_neg locked, firstActive, secondActive, Bool.false_eq_true, or_self, if_false]
  by_cases low : (t.page first).occupancy ≤ (t.page first).minimum N
  · by_cases lends : (t.page second).minimum N < (t.page second).occupancy
    · obtain ⟨boundary, whole, leftKind, rightKind, result, shift, grows⟩ :=
        adjacent.borrowFromRight_ok inv three low lends
      simp only [List.nil_append, List.length_nil] at result
      exact ⟨_, _, by simp only [if_pos low, if_pos lends, result, ok_bind]; rfl,
        .borrowRight adjacent.member shift grows {
          routed := routed
          safe := safe
          slots := ⟨_, _, kind, index⟩
          low := low
          lends := lends
        } (shift.covers_first inv adjacent.member grows inner)⟩
    · obtain ⟨whole, result, merge⟩ :=
        adjacent.mergeLeftIntoRight_ok inv three safe low (Nat.le_of_not_lt lends)
      simp only [List.nil_append, List.length_nil] at result
      exact ⟨_, _, by simp only [if_pos low, if_neg lends, result, ok_bind]; rfl,
        .merge adjacent.member merge (merge.covers inv adjacent.member (.inl inner))⟩
  · exact ⟨_, _, by rw [if_neg low]; rfl,
      .move (.child ⟨adjacent.member, covers⟩ ⟨adjacent.first_mem inv, inner⟩
        (Nat.lt_of_not_le low))⟩

theorem removeAttempt_ok (inv : Inv N t shape) (three : 3 ≤ N) (key : Query K) (latched : Bool)
    (allocated : p < t.pages)
    : ∃ t' pc',
        t.removeAttempt N key p latched = .ok (t', pc')
        ∧ Removes N t shape latched (.removeAttempt key p) t' pc' := by
  obtain ⟨route, routed, routes⟩ := inv.route_ok allocated key
  cases routes with
  | forward retired =>
      exact ⟨_, _, by simp only [Tree.removeAttempt, routed, ok_bind]; rfl,
        .move (.forward retired)⟩
  | restart _ under =>
      exact ⟨_, _, by simp only [Tree.removeAttempt, routed, ok_bind]; rfl,
        .retry (fun _ _ owns => absurd owns.covers under.not_covers)⟩
  | right member points inRow resolves beyond =>
      exact ⟨_, _, by simp only [Tree.removeAttempt, routed, ok_bind]; rfl,
        .move (.right member points inRow resolves beyond)⟩
  | @here l member covers =>
      by_cases safe : (t.page p).isRoot = false ∧ (t.page p).occupancy ≤ (t.page p).minimum N
      · refine ⟨_, _, by simp only [Tree.removeAttempt, routed, ok_bind, if_pos safe]; rfl,
          .retry (fun _ l owns => .inl ⟨?_, Nat.not_lt.mpr safe.2⟩)⟩
        intro isRoot
        have flagged := (inv.page l p owns.member).flag.mpr isRoot
        rw [safe.1] at flagged
        cases flagged
      cases l with
      | zero =>
          obtain ⟨entries, kind⟩ := inv.leaf_of_zero member
          exact removeLeaf_ok inv ⟨member, kind, covers⟩ routed safe
      | succ l =>
          obtain ⟨keys, children, kind⟩ := inv.internal_of_pos member
          obtain ⟨front, back, before, child, after, descends⟩ := inv.descend_ok member kind key
          obtain ⟨rfl, rfl, aligned, index, -, -, -, -, descends⟩ := descends
          have inner := descends covers
          have count := inv.aligned member kind
          rcases front.eq_nil_or_concat with rfl | ⟨front, separator, rfl⟩
          · obtain rfl : before = [] := List.length_eq_zero_iff.mp aligned
            cases after with
            | nil =>
                obtain rfl : back = [] := List.length_eq_zero_iff.mp (by
                  simp only [List.nil_append, List.length_singleton] at count
                  omega)
                refine ⟨_, _, ?_, .retry (fun _ _ _ => .inr ⟨_, kind⟩)⟩
                simp only [List.nil_append, List.length_nil] at index kind
                simp only [Tree.removeAttempt, routed, ok_bind, if_neg safe, kind, index]
                rfl
            | cons second after =>
                obtain ⟨separator, back, rfl⟩ := List.exists_cons_of_length_pos (l := back) (by
                  simp only [List.nil_append, List.length_cons] at count
                  omega)
                exact removeFirst_ok inv three ⟨member, kind, rfl⟩ covers inner routed safe index
          · rcases before.eq_nil_or_concat with rfl | ⟨before, first, rfl⟩
            · simp at aligned
            · simp only [List.concat_eq_append, List.length_append, List.length_singleton,
                Nat.add_right_cancel_iff, List.append_assoc, List.singleton_append]
                at kind aligned index
              exact removeSecond_ok inv three ⟨member, kind, aligned⟩ covers inner routed safe index

end BLink
