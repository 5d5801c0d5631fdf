import BLink.Structure.Replace

/-! Splitting a child, moving the boundary between two siblings, and merging them.
Each of the three replaces neighbouring children of a page, because cutting a page's content
at a separator and joining it again are inverse to each other.
-/

namespace BLink

open Library

variable {K V : Type} [TotalOrd K]

-----------------------------------------------------------------------------------------
-- Cutting and joining contents
-----------------------------------------------------------------------------------------

section Cutting

variable {lower upper : PageId → Option (KeyHandle K)} {low high : Option (KeyHandle K)}
    {left right whole kind : NodeKind K V} {separator : KeyHandle K}

/-- A page's content depends on the fences of its own children only. -/
theorem Content.congr {lower' upper' : PageId → Option (KeyHandle K)}
    (content : Content lower upper low high kind)
    (same : ∀ child ∈ kind.children,
      lower' child = lower child ∧ upper' child = upper child)
    : Content lower' upper' low high kind := by
  cases kind with
  | leaf entries => exact content
  | redirect target => exact content
  | internal keys children =>
      refine content.imp ?_
      intro child member low high spans
      obtain ⟨lowSame, highSame⟩ := same child member
      exact ⟨lowSame.trans spans.lower_eq, highSame.trans spans.upper_eq, spans.below⟩

/-- Contents on either side of a separator join to one content. -/
theorem Content.join (joins : Joins left separator right whole)
    (leftContent : Content lower upper low (some separator) left)
    (rightContent : Content lower upper (some separator) high right)
    (lowBelow : Below low (some separator)) (highBelow : Below (some separator) high)
    : Content lower upper low high whole := by
  cases joins with
  | leaf =>
      obtain ⟨leftSorted, leftWithin⟩ := leftContent
      obtain ⟨rightSorted, rightWithin⟩ := rightContent
      refine ⟨SortedBy.append_iff.mpr ⟨leftSorted, rightSorted, ?_⟩, ?_⟩
      · intro a inLeft b inRight
        have below := (leftWithin a inLeft).2 separator rfl
        exact lt_of_lt_of_le below ((rightWithin b inRight).1 separator rfl)
      · intro entry member
        rcases List.mem_append.mp member with inLeft | inRight
        · refine ⟨(leftWithin entry inLeft).1, fun bound ends => ?_⟩
          exact lt_trans ((leftWithin entry inLeft).2 separator rfl)
            (highBelow separator rfl bound ends)
        · refine ⟨fun lowest begins => ?_, (rightWithin entry inRight).2⟩
          exact le_trans (le_of_lt (lowBelow lowest begins separator rfl))
            ((rightWithin entry inRight).1 separator rfl)
  | internal leftAligned _ => exact (tiles_append_iff leftAligned).mpr ⟨leftContent, rightContent⟩

/-- A content is cut by a separator at which its right part starts. -/
theorem Content.cut (joins : Joins left separator right whole)
    (content : Content lower upper low high whole) (starts : right.StartsAt separator)
    (nonempty : 0 < left.size)
    : Content lower upper low (some separator) left
      ∧ Content lower upper (some separator) high right
      ∧ Below low (some separator)
      ∧ Below (some separator) high := by
  cases joins with
  | @leaf leftEntries rightEntries =>
      obtain ⟨sorted, within⟩ := content
      obtain ⟨leftSorted, rightSorted, apart⟩ := SortedBy.append_iff.mp sorted
      obtain ⟨first, isFirst, rfl⟩ := starts
      have firstMember := List.mem_of_head? isFirst
      have leftBelow : ∀ entry ∈ leftEntries, entry.key < first.key :=
        fun entry member => apart entry member first firstMember
      refine ⟨⟨leftSorted, ?_⟩, ⟨rightSorted, ?_⟩, ?_, ?_⟩
      · intro entry member
        refine ⟨(within entry (List.mem_append_left _ member)).1, ?_⟩
        rintro bound ⟨⟩
        exact leftBelow entry member
      · intro entry member
        refine ⟨?_, (within entry (List.mem_append_right _ member)).2⟩
        rintro lowest ⟨⟩
        match rightEntries, isFirst, member with
        | head :: tail, rfl, member =>
            rcases List.mem_cons.mp member with rfl | later
            · exact le_refl _
            · exact isLE_of_compare_lt ((SortedBy.cons_iff.mp rightSorted).1 entry later)
      · rintro lowest begins _ ⟨⟩
        obtain ⟨some, member⟩ := List.exists_mem_of_length_pos nonempty
        exact lt_of_le_of_lt ((within some (List.mem_append_left _ member)).1 lowest begins)
          (leftBelow some member)
      · rintro _ ⟨⟩ bound ends
        exact (within first (List.mem_append_right _ firstMember)).2 bound ends
  | internal leftAligned _ =>
      obtain ⟨leftTiles, rightTiles⟩ := (tiles_append_iff leftAligned).mp content
      exact ⟨leftTiles, rightTiles, leftTiles.below, rightTiles.below⟩

/-- A boundary that moves left comes from the old left part. -/
theorem Content.boundary_lt {left' right' : NodeKind K V} {boundary : KeyHandle K}
    (joins : Joins left separator right whole) (joins' : Joins left' boundary right' whole)
    (starts : right'.StartsAt boundary) (grows : right.size < right'.size)
    (content : Content lower upper low (some separator) left)
    : boundary < separator := by
  cases joins with
  | @leaf oldLeft oldRight =>
      have old : Joins (.leaf oldLeft) separator (.leaf oldRight) _ := .leaf
      obtain ⟨leftEntries, rightEntries, rfl, rfl, same⟩ := Joins.leaves old joins'
      obtain ⟨first, isFirst, rfl⟩ := starts
      simp only [NodeKind.size] at grows
      rcases List.append_eq_append_iff.mp same with ⟨extra, -, rest⟩ | ⟨extra, rfl, rfl⟩
      · rw [rest, List.length_append] at grows
        omega
      · cases extra with
        | nil => simp at grows
        | cons head extra =>
            obtain rfl := Option.some.inj isFirst
            exact (content.2 head (by simp)).2 separator rfl
  | internal leftAligned rightAligned =>
      obtain ⟨leftKeys, _, rightKeys, _, rfl, rfl, same⟩ :=
        Joins.internals (.internal leftAligned rightAligned) joins'
      simp only [NodeKind.size] at grows
      rcases List.append_eq_append_iff.mp same with ⟨extra, -, rest⟩ | ⟨extra, rfl, rest⟩
      · have count := congrArg List.length rest
        simp only [List.length_append, List.length_cons] at count
        omega
      · cases extra with
        | nil =>
            rw [List.nil_append, List.cons.injEq] at rest
            rw [rest.2] at grows
            exact absurd grows (Nat.lt_irrefl _)
        | cons head extra =>
            obtain ⟨rfl, -⟩ := (List.cons.injEq ..).mp rest
            exact (content.keys_sorted.2 boundary (by simp)).2 boundary rfl separator rfl

/-- A boundary that moves right comes from the old right part. -/
theorem Content.separator_le {left' right' : NodeKind K V} {boundary : KeyHandle K}
    (joins : Joins left separator right whole) (joins' : Joins left' boundary right' whole)
    (starts : right'.StartsAt boundary) (grows : left.size < left'.size)
    (content : Content lower upper (some separator) high right)
    : separator ≤ boundary := by
  cases joins with
  | @leaf oldLeft oldRight =>
      have old : Joins (.leaf oldLeft) separator (.leaf oldRight) _ := .leaf
      obtain ⟨leftEntries, rightEntries, rfl, rfl, same⟩ := Joins.leaves old joins'
      obtain ⟨first, isFirst, rfl⟩ := starts
      simp only [NodeKind.size] at grows
      rcases List.append_eq_append_iff.mp same with ⟨extra, -, rfl⟩ | ⟨extra, rest, -⟩
      · refine (content.2 first ?_).1 separator rfl
        exact List.mem_append_right _ (List.mem_of_head? isFirst)
      · rw [rest, List.length_append] at grows
        omega
  | internal leftAligned rightAligned =>
      obtain ⟨leftKeys, _, rightKeys, _, rfl, rfl, same⟩ :=
        Joins.internals (.internal leftAligned rightAligned) joins'
      simp only [NodeKind.size] at grows
      rcases List.append_eq_append_iff.mp same with ⟨extra, rfl, rest⟩ | ⟨extra, rfl, -⟩
      · cases extra with
        | nil => simp at grows
        | cons head extra =>
            obtain ⟨-, rfl⟩ := (List.cons.injEq ..).mp rest
            exact le_of_lt
              ((content.keys_sorted.2 boundary (by simp)).1 separator rfl boundary rfl)
      · rw [List.length_append] at grows
        omega

omit [TotalOrd K] in
theorem Joins.isLeaf_eq (joins : Joins left separator right whole)
    : left.isLeaf = whole.isLeaf ∧ right.isLeaf = whole.isLeaf := by
  cases joins <;> exact ⟨rfl, rfl⟩

end Cutting

namespace Inv

variable {N : Nat} {t : Tree K V} {shape : Shape} {l : Nat} {p q : PageId}

/-- Pages of one level have contents that can be joined at any separator. -/
theorem joins (inv : Inv N t shape) (hp : p ∈ shape.row l) (hq : q ∈ shape.row l)
    (separator : KeyHandle K)
    : ∃ whole, Joins (t.page p).kind separator (t.page q).kind whole := by
  cases l with
  | zero =>
      obtain ⟨left, leftKind⟩ := inv.leaf_of_zero hp
      obtain ⟨right, rightKind⟩ := inv.leaf_of_zero hq
      rw [leftKind, rightKind]
      exact ⟨_, .leaf⟩
  | succ l =>
      obtain ⟨leftKeys, leftChildren, leftKind⟩ := inv.internal_of_pos hp
      obtain ⟨rightKeys, rightChildren, rightKind⟩ := inv.internal_of_pos hq
      have leftLength := (inv.content_internal hp leftKind).length
      have rightLength := (inv.content_internal hq rightKind).length
      rw [leftKind, rightKind]
      exact ⟨_, .internal leftLength rightLength⟩

/-- An address that is not allocated yet forwards nowhere. -/
theorem forward_unallocated (inv : Inv N t shape) (beyond : t.pages ≤ p)
    : t.forward p = none := by
  cases role : t.forward p with
  | none => rfl
  | some target => exact absurd (inv.forwards p target role).1 (Nat.not_lt.mpr beyond)

/-- The children of one page are different pages. -/
theorem children_nodup (inv : Inv N t shape) (member : q ∈ shape.row (l + 1))
    : (t.children q).Nodup := by
  have nodup := inv.row_nodup l
  rw [inv.below l (inv.le_height member)] at nodup
  exact (List.nodup_flatMap.mp nodup).1 q member

theorem child_mem_row (inv : Inv N t shape) (member : q ∈ shape.row (l + 1)) {child : PageId}
    (inside : child ∈ t.children q)
    : child ∈ shape.row l := by
  rw [inv.below l (inv.le_height member)]
  exact List.mem_flatMap.mpr ⟨q, member, inside⟩

/-- The children of a page at some level, one level further down. -/
theorem grandchild_mem (inv : Inv N t shape) (member : p ∈ shape.row l) {child : PageId}
    (inside : child ∈ t.children p)
    : ∃ m, l = m + 1 ∧ child ∈ shape.row m := by
  cases kind : (t.page p).kind with
  | leaf entries => simp [Tree.children, kind] at inside
  | redirect target => simp [Tree.children, kind] at inside
  | internal keys children =>
      obtain ⟨m, rfl⟩ := inv.pos_of_internal member kind
      exact ⟨m, rfl, inv.child_mem_row member inside⟩

end Inv

variable {N : Nat} {t t' : Tree K V} {shape : Shape} {l : Nat} {q : PageId}

/-- A parent stays well formed with new separators and children that tile its interval. -/
theorem PageOk.withChildren {keys : List (KeyHandle K)} {children : List PageId}
    (ok : PageOk N t (l + 1) q)
    (page : t'.page q = { t.page q with kind := .internal keys children })
    (root : t'.root = t.root)
    (tiles : Tiles (Spans t'.low t'.high) (t.low q) keys children (t.high q))
    (full : keys.length ≤ N) (minimum : q ≠ t.root → (N - 1) / 2 ≤ keys.length)
    : PageOk N t' (l + 1) q := by
  have low : t'.low q = t.low q := by rw [Tree.low, page]; rfl
  have high : t'.high q = t.high q := by rw [Tree.high, page]; rfl
  refine {
    content := ?_
    leaf_iff := by rw [page]; simp [NodeKind.isLeaf]
    below := by rw [low, high]; exact ok.below
    full := by rw [page]; exact full
    minimum := by rw [page, root]; exact minimum
    flag := by rw [page, root]; exact ok.flag
  }
  rw [page, low, high]
  exact tiles

/-- The siblings of some neighbouring children are other pages. -/
theorem Inv.siblings (inv : Inv N t shape) (member : q ∈ shape.row (l + 1))
    {before window after : List PageId} (slots : t.children q = before ++ (window ++ after))
    {p : PageId} (inside : p ∈ before ++ after)
    : p ∈ shape.row l ∧ p ∉ window := by
  have nodup := inv.children_nodup member
  rw [slots] at nodup
  obtain ⟨-, rest, apart⟩ := List.nodup_append.mp nodup
  obtain ⟨-, -, apartAfter⟩ := List.nodup_append.mp rest
  rcases List.mem_append.mp inside with left | right
  · refine ⟨inv.child_mem_row member (by rw [slots]; exact List.mem_append_left _ left), ?_⟩
    exact fun isOld => apart p left p (List.mem_append_left _ isOld) rfl
  · refine ⟨inv.child_mem_row member (by rw [slots]; simp [right]), ?_⟩
    exact fun isOld => apartAfter p isOld p right rfl

/-- The pages other than `old` stay, but for the content of their parent `q`. -/
structure StaysBeside (t t' : Tree K V) (q : PageId) (old : List PageId) : Prop where
  parent : ∃ kind, t'.page q = { t.page q with kind }
  other : ∀ p, p < t.pages → p ≠ q → p ∉ old → t'.page p = t.page p

namespace StaysBeside

variable {old before after : List PageId} {low high : Option (KeyHandle K)} {p : PageId}

omit [TotalOrd K] in
/-- The fences stay, also those of the parent. -/
theorem fences (beside : StaysBeside t t' q old) (allocated : p < t.pages) (absent : p ∉ old)
    : t'.low p = t.low p ∧ t'.high p = t.high p := by
  by_cases isParent : p = q
  · subst p
    obtain ⟨kind, page⟩ := beside.parent
    exact ⟨by rw [Tree.low, page]; rfl, by rw [Tree.high, page]; rfl⟩
  · have page := beside.other p allocated isParent absent
    exact ⟨by rw [Tree.low, page]; rfl, by rw [Tree.high, page]; rfl⟩

/-- The siblings keep their intervals. -/
theorem sibling (beside : StaysBeside t t' q old) (inv : Inv N t shape)
    (member : q ∈ shape.row (l + 1)) (slots : t.children q = before ++ (old ++ after))
    (inside : p ∈ before ++ after) (spans : Spans t.low t.high low high p)
    : Spans t'.low t'.high low high p := by
  obtain ⟨inRow, absent⟩ := inv.siblings member slots inside
  obtain ⟨lowSame, highSame⟩ := beside.fences (inv.active inRow).1 absent
  exact ⟨lowSame.trans spans.lower_eq, highSame.trans spans.upper_eq, spans.below⟩

/-- A content made of what the pages `old` contain stays a content. -/
theorem content (beside : StaysBeside t t' q old) (inv : Inv N t shape)
    (olds : ∀ p ∈ old, p ∈ shape.row l) {kind : NodeKind K V}
    (content : Content t.low t.high low high kind)
    (inside : ∀ child ∈ kind.children, ∃ p ∈ old, child ∈ t.children p)
    : Content t'.low t'.high low high kind := by
  refine content.congr (fun child isChild => ?_)
  obtain ⟨p, isOld, isBelow⟩ := inside child isChild
  obtain ⟨m, rfl, inRow⟩ := inv.grandchild_mem (olds p isOld) isBelow
  refine beside.fences (inv.active inRow).1 (fun also => ?_)
  exact inv.ne_of_level inRow (olds child also) (by omega) rfl

end StaysBeside

/-- Between two neighbouring children their contents join at the separator. -/
theorem Inv.joined (inv : Inv N t shape) (member : q ∈ shape.row (l + 1))
    {first second : PageId} {separator : KeyHandle K} {front back : List (KeyHandle K)}
    {before after : List PageId} {whole : NodeKind K V}
    (kind
      : (t.page q).kind
        = .internal (front ++ separator :: back) (before ++ first :: second :: after))
    (aligned : before.length = front.length)
    (joins : Joins (t.page first).kind separator (t.page second).kind whole)
    : t.low second = some separator
      ∧ Below (t.low first) (some separator)
      ∧ Below (some separator) (t.high second)
      ∧ Content t.low t.high (t.low first) (t.high second) whole := by
  have slots : t.children q = before ++ first :: second :: after := by
    simp [Tree.children, kind]
  obtain ⟨-, firstSpans, secondSpans, -⟩ :=
    (tiles_pair_iff aligned).mp (inv.content_internal member kind)
  have firstOk := inv.page l first (inv.child_mem_row member (by simp [slots]))
  have secondOk := inv.page l second (inv.child_mem_row member (by simp [slots]))
  have firstContent := firstOk.content
  have secondContent := secondOk.content
  rw [firstSpans.upper_eq] at firstContent
  rw [secondSpans.lower_eq] at secondContent
  have lowBelow := firstSpans.below
  have highBelow := secondSpans.below
  rw [← firstSpans.lower_eq] at lowBelow
  rw [← secondSpans.upper_eq] at highBelow
  exact ⟨secondSpans.lower_eq, lowBelow, highBelow,
    firstContent.join joins secondContent lowBelow highBelow⟩

/-- Two neighbouring children are different pages. -/
theorem Inv.neighbours_ne (inv : Inv N t shape) (member : q ∈ shape.row (l + 1))
    {first second : PageId} {before after : List PageId}
    (slots : t.children q = before ++ ([first, second] ++ after))
    : first ≠ second := by
  have nodup := inv.children_nodup member
  rw [slots] at nodup
  obtain ⟨-, rest, -⟩ := List.nodup_append.mp nodup
  simp only [List.cons_append, List.nil_append, List.nodup_cons, List.mem_cons] at rest
  exact fun same => rest.1 (.inl same)

-----------------------------------------------------------------------------------------
-- Splitting a child
-----------------------------------------------------------------------------------------

/-- The child `c` of `q` is split at `separator`; the new page `r` is its right sibling. -/
structure SplitChild (N : Nat) (t t' : Tree K V) (q c r : PageId)
    (separator : KeyHandle K) (leftKind rightKind : NodeKind K V)
    (front back : List (KeyHandle K)) (before after : List PageId)
    : Prop where
  kind : (t.page q).kind = .internal (front ++ back) (before ++ c :: after)
  aligned : before.length = front.length
  room : (front ++ back).length < N
  joins : Joins leftKind separator rightKind (t.page c).kind
  starts : rightKind.StartsAt separator
  leftLeast : leftKind.least N ≤ leftKind.size
  rightLeast : rightKind.least N ≤ rightKind.size
  leftSize : leftKind.size ≤ N
  rightSize : rightKind.size ≤ N
  fresh : r = t.pages
  root : t'.root = t.root
  len : t'.len = t.len
  pages : t'.pages = t.pages + 1
  left
    : t'.page c
      = { t.page c with highKey := some separator, right := some r, kind := leftKind }
  right
    : t'.page r
      = {
          isRoot := false
          lowKey := some separator
          highKey := (t.page c).highKey
          previous := some c
          right := (t.page c).right
          kind := rightKind
        }
  parent
    : t'.page q
      = {
          t.page q with
          kind := .internal (front ++ separator :: back) (before ++ c :: r :: after)
        }
  other : ∀ p, p ≠ q → p ≠ c → p ≠ r → t'.page p = t.page p

/-- A split retires nothing. -/
theorem SplitChild.forward_eq (inv : Inv N t shape) (member : q ∈ shape.row (l + 1))
    {c r : PageId} {separator : KeyHandle K} {leftKind rightKind : NodeKind K V}
    {front back : List (KeyHandle K)} {before after : List PageId}
    (split : SplitChild N t t' q c r separator leftKind rightKind front back before after)
    : t'.forward = t.forward := by
  have childMember : c ∈ shape.row l := inv.child_mem member split.kind (by simp)
  obtain ⟨leftActive, rightActive, -⟩ := split.joins.target_eq
  funext p
  by_cases isParent : p = q
  · subst p
    rw [Tree.forward_eq, Tree.forward_eq, split.parent, split.kind]
    rfl
  · by_cases isChild : p = c
    · subst p
      rw [(inv.active childMember).2, Tree.forward_eq, split.left]
      exact leftActive
    · by_cases isNew : p = r
      · subst p
        rw [split.fresh, inv.forward_unallocated (Nat.le_refl _), ← split.fresh, Tree.forward_eq,
          split.right]
        exact rightActive
      · exact Tree.forward_congr (split.other p isParent isChild isNew)

/-- A split replaces the child by itself and its new sibling. -/
theorem SplitChild.replaced (inv : Inv N t shape) (three : 3 ≤ N)
    (member : q ∈ shape.row (l + 1)) {c r : PageId} {separator : KeyHandle K}
    {leftKind rightKind : NodeKind K V} {front back : List (KeyHandle K)}
    {before after : List PageId}
    (split : SplitChild N t t' q c r separator leftKind rightKind front back before after)
    : Replaced N t t' shape l q id before [c] [c, r] after := by
  have slots : t.children q = before ++ ([c] ++ after) := by simp [Tree.children, split.kind]
  have childMember : c ∈ shape.row l := inv.child_mem_row member (by simp [slots])
  have childActive := inv.active childMember
  have childOk := inv.page l c childMember
  have parentOk := inv.page (l + 1) q member
  have fresh := split.fresh
  have unallocated {p m} (inRow : p ∈ shape.row m) : p ≠ r := by
    rw [fresh]
    exact Nat.ne_of_lt (inv.active inRow).1
  have beside : StaysBeside t t' q [c] := {
    parent := ⟨_, split.parent⟩
    other := by
      intro p allocated isParent absent
      exact split.other p isParent (List.mem_singleton.not.mp absent)
        (fresh ▸ Nat.ne_of_lt allocated)
  }
  have lowC : t'.low c = t.low c := by rw [Tree.low, split.left]; rfl
  have highC : t'.high c = some separator := by rw [Tree.high, split.left]
  have lowR : t'.low r = some separator := by rw [Tree.low, split.right]
  have highR : t'.high r = t.high c := by rw [Tree.high, split.right]; rfl
  obtain ⟨leftContent, rightContent, lowBelow, highBelow⟩ :=
    childOk.content.cut split.joins split.starts
      (Nat.lt_of_lt_of_le (split.joins.least_pos three) split.leftLeast)
  have olds : ∀ p ∈ [c], p ∈ shape.row l := by simpa using childMember
  have parts := split.joins.children_eq
  obtain ⟨leftLeaf, rightLeaf⟩ := split.joins.isLeaf_eq
  obtain ⟨-, rightActive, -⟩ := split.joins.target_eq
  have forwards := split.forward_eq inv member
  exact {
    parent := member
    slots := slots
    slots' := by simp [Tree.children, split.parent]
    root := split.root
    len := split.len
    pages := by rw [split.pages]; omega
    other := by
      intro p isParent notOld notNew
      simp only [List.mem_cons, List.not_mem_nil, or_false, not_or] at notNew
      exact split.other p isParent notNew.1 notNew.2
    parentPage := ⟨_, split.parent⟩
    parentOk := by
      obtain ⟨frontTiles, spans, backTiles⟩ :=
        (tiles_iff split.aligned).mp (inv.content_internal member split.kind)
      have sibling {p low high} (inside : p ∈ before ++ after)
          (spans : Spans t.low t.high low high p) :=
        beside.sibling inv member slots inside spans
      refine parentOk.withChildren split.parent split.root
        ((tiles_pair_iff split.aligned).mpr ⟨?_, ?_, ?_, ?_⟩) ?_ ?_
      · exact frontTiles.imp (fun p m _ _ spans => sibling (List.mem_append_left _ m) spans)
      · exact ⟨lowC.trans spans.lower_eq, highC, by rw [← spans.lower_eq]; exact lowBelow⟩
      · exact ⟨lowR, highR.trans spans.upper_eq, by rw [← spans.upper_eq]; exact highBelow⟩
      · exact backTiles.imp (fun p m _ _ spans => sibling (List.mem_append_right _ m) spans)
      · have room := split.room
        simp only [List.length_append, List.length_cons] at room ⊢
        omega
      · intro isNotRoot
        have minimum := parentOk.minimum isNotRoot
        simp only [split.kind, NodeKind.size, NodeKind.least, List.length_append] at minimum
        simp only [List.length_append, List.length_cons]
        omega
    newOk := by
      intro p inside
      simp only [List.mem_cons, List.not_mem_nil, or_false] at inside
      rcases inside with rfl | rfl
      · refine {
          content := ?_
          leaf_iff := by rw [split.left, ← childOk.leaf_iff, leftLeaf]
          below := by rw [lowC, highC]; exact lowBelow
          full := by rw [split.left]; exact split.leftSize
          minimum := fun _ => by rw [split.left]; exact split.leftLeast
          flag := by rw [split.left, split.root]; exact childOk.flag
        }
        rw [split.left, lowC, highC]
        refine beside.content inv olds leftContent (fun child inside => ?_)
        refine ⟨_, List.mem_singleton_self _, ?_⟩
        rw [Tree.children, ← parts]
        exact List.mem_append_left _ inside
      · refine {
          content := ?_
          leaf_iff := by rw [split.right, ← childOk.leaf_iff, rightLeaf]
          below := by rw [lowR, highR]; exact highBelow
          full := by rw [split.right]; exact split.rightSize
          minimum := fun _ => by rw [split.right]; exact split.rightLeast
          flag := ?_
        }
        · rw [split.right, lowR, highR]
          refine beside.content inv olds rightContent (fun child inside => ?_)
          refine ⟨_, List.mem_singleton_self _, ?_⟩
          rw [Tree.children, ← parts]
          exact List.mem_append_right _ inside
        · rw [split.right, split.root]
          simpa using (unallocated inv.root_mem).symm
    mem := by
      intro p inside
      simp only [List.mem_cons, List.not_mem_nil, or_false] at inside ⊢
      rcases inside with rfl | rfl
      · exact Or.inl rfl
      · exact Or.inr ⟨Nat.le_of_eq fresh.symm, by rw [split.pages, fresh]; exact Nat.lt_succ_self _⟩
    fresh := by
      intro p beyond allocated
      rw [split.pages] at allocated
      have same : p = r := by rw [fresh]; exact Nat.le_antisymm (Nat.le_of_lt_succ allocated) beyond
      simp [same]
    retired := by simp
    inherits := by
      intro p s resolves
      rw [forwards]
      exact resolves
    others := fun _ _ => rfl
    heirs := by simp
    heads := rfl
    linked := by
      intro next _ linked
      obtain ⟨leads, -⟩ := linked
      refine ⟨⟨r, by rw [split.left], ?_⟩, ?_, trivial⟩
      · refine .settled ?_
        rw [Tree.forward_eq, split.right]
        exact rightActive
      · cases next with
        | none => exact (congrArg Node.right split.right).trans leads
        | some s =>
            obtain ⟨link, points, resolves⟩ := leads
            exact ⟨link, (congrArg Node.right split.right).trans points, by rwa [forwards]⟩
    children := by simpa [Tree.children, split.left, split.right] using parts
    entries := by
      simpa [Tree.entries, split.left, split.right] using split.joins.entries_eq
    lows := by
      intro s isOld first
      obtain rfl := List.mem_singleton.mp isOld
      exact lowC.trans first
    previous := by
      intro p inside x previous
      rw [split.pages]
      simp only [List.mem_cons, List.not_mem_nil, or_false] at inside
      refine Nat.lt_succ_of_lt ?_
      by_cases isNew : p = r
      · subst p
        rw [split.right] at previous
        obtain rfl : c = x := by simpa using previous
        exact childActive.1
      · obtain rfl : p = c := by tauto
        rw [split.left] at previous
        exact inv.previous p x childActive.1 previous
  }

-----------------------------------------------------------------------------------------
-- Moving the boundary between two siblings
-----------------------------------------------------------------------------------------

/-- The boundary between the neighbouring children `first` and `second` of `q` is moved, and
the contents of the two are cut there.
-/
structure ShiftBoundary (N : Nat) (t t' : Tree K V) (q first second : PageId)
    (separator boundary : KeyHandle K) (whole leftKind rightKind : NodeKind K V)
    (front back : List (KeyHandle K)) (before after : List PageId)
    : Prop where
  kind
    : (t.page q).kind
      = .internal (front ++ separator :: back) (before ++ first :: second :: after)
  aligned : before.length = front.length
  joins : Joins (t.page first).kind separator (t.page second).kind whole
  joins' : Joins leftKind boundary rightKind whole
  starts : rightKind.StartsAt boundary
  leftLeast : leftKind.least N ≤ leftKind.size
  rightLeast : rightKind.least N ≤ rightKind.size
  leftSize : leftKind.size ≤ N
  rightSize : rightKind.size ≤ N
  root : t'.root = t.root
  len : t'.len = t.len
  pages : t'.pages = t.pages
  left : t'.page first = { t.page first with highKey := some boundary, kind := leftKind }
  right : t'.page second = { t.page second with lowKey := some boundary, kind := rightKind }
  parent
    : t'.page q
      = {
          t.page q with
          kind := .internal (front ++ boundary :: back) (before ++ first :: second :: after)
        }
  other : ∀ p, p ≠ q → p ≠ first → p ≠ second → t'.page p = t.page p

omit [TotalOrd K] in
/-- Moving a boundary retires nothing. -/
theorem ShiftBoundary.forward_eq {first second : PageId} {separator boundary : KeyHandle K}
    {whole leftKind rightKind : NodeKind K V} {front back : List (KeyHandle K)}
    {before after : List PageId}
    (shift
      : ShiftBoundary N t t' q first second separator boundary whole leftKind rightKind front
          back before after)
    : t'.forward = t.forward := by
  obtain ⟨firstActive, secondActive, -⟩ := shift.joins.target_eq
  obtain ⟨leftActive, rightActive, -⟩ := shift.joins'.target_eq
  funext p
  rw [Tree.forward_eq, Tree.forward_eq]
  by_cases isParent : p = q
  · subst p
    rw [shift.parent, shift.kind]
    rfl
  · by_cases isFirst : p = first
    · subst p
      rw [firstActive, shift.left]
      exact leftActive
    · by_cases isSecond : p = second
      · subst p
        rw [secondActive, shift.right]
        exact rightActive
      · rw [shift.other p isParent isFirst isSecond]

/-- A moved boundary replaces both siblings by themselves. -/
theorem ShiftBoundary.replaced (inv : Inv N t shape) (three : 3 ≤ N)
    (member : q ∈ shape.row (l + 1)) {first second : PageId}
    {separator boundary : KeyHandle K} {whole leftKind rightKind : NodeKind K V}
    {front back : List (KeyHandle K)} {before after : List PageId}
    (shift
      : ShiftBoundary N t t' q first second separator boundary whole leftKind rightKind front
          back before after)
    : Replaced N t t' shape l q id before [first, second] [first, second] after := by
  have slots : t.children q = before ++ ([first, second] ++ after) := by
    simp [Tree.children, shift.kind]
  have firstMember : first ∈ shape.row l := inv.child_mem_row member (by simp [slots])
  have secondMember : second ∈ shape.row l := inv.child_mem_row member (by simp [slots])
  have firstOk := inv.page l first firstMember
  have secondOk := inv.page l second secondMember
  have parentOk := inv.page (l + 1) q member
  have other : ∀ p, p ≠ q → p ∉ [first, second] → t'.page p = t.page p := by
    intro p isParent notOld
    simp only [List.mem_cons, List.not_mem_nil, or_false, not_or] at notOld
    exact shift.other p isParent notOld.1 notOld.2
  have beside : StaysBeside t t' q [first, second] :=
    ⟨⟨_, shift.parent⟩, fun p _ => other p⟩
  -- The contents of both pages, joined at the old boundary and cut at the new one.
  obtain ⟨lowOld, -, -, content⟩ := inv.joined member shift.kind shift.aligned shift.joins
  obtain ⟨leftContent, rightContent, lowBelow', highBelow'⟩ :=
    content.cut shift.joins' shift.starts
      (Nat.lt_of_lt_of_le (shift.joins'.least_pos three) shift.leftLeast)
  have lowFirst : t'.low first = t.low first := by rw [Tree.low, shift.left]; rfl
  have highFirst : t'.high first = some boundary := by rw [Tree.high, shift.left]
  have lowSecond : t'.low second = some boundary := by rw [Tree.low, shift.right]
  have highSecond : t'.high second = t.high second := by rw [Tree.high, shift.right]; rfl
  have parts := shift.joins.children_eq
  have parts' := shift.joins'.children_eq
  have olds : ∀ p ∈ [first, second], p ∈ shape.row l := by simp [firstMember, secondMember]
  have inner {kind : NodeKind K V} {low high}
      (content : Content t.low t.high low high kind)
      (sub : ∀ child ∈ kind.children, child ∈ whole.children)
      : Content t'.low t'.high low high kind := by
    refine beside.content inv olds content (fun child inside => ?_)
    have inWhole := sub child inside
    rw [← parts] at inWhole
    rcases List.mem_append.mp inWhole with inFirst | inSecond
    · exact ⟨first, by simp, inFirst⟩
    · exact ⟨second, by simp, inSecond⟩
  obtain ⟨leftLeaf, rightLeaf⟩ := shift.joins.isLeaf_eq
  obtain ⟨leftLeaf', rightLeaf'⟩ := shift.joins'.isLeaf_eq
  have forwards := shift.forward_eq
  exact {
    parent := member
    slots := slots
    slots' := by simp [Tree.children, shift.parent]
    root := shift.root
    len := shift.len
    pages := Nat.le_of_eq shift.pages.symm
    other := fun p isParent notOld _ => other p isParent notOld
    parentPage := ⟨_, shift.parent⟩
    parentOk := by
      obtain ⟨frontTiles, firstSpans, secondSpans, backTiles⟩ :=
        (tiles_pair_iff shift.aligned).mp (inv.content_internal member shift.kind)
      have sibling {p low high} (inside : p ∈ before ++ after)
          (spans : Spans t.low t.high low high p) :=
        beside.sibling inv member slots inside spans
      refine parentOk.withChildren shift.parent shift.root
        ((tiles_pair_iff shift.aligned).mpr ⟨?_, ?_, ?_, ?_⟩) ?_ ?_
      · exact frontTiles.imp (fun p m _ _ spans => sibling (List.mem_append_left _ m) spans)
      · exact ⟨lowFirst.trans firstSpans.lower_eq, highFirst,
          by rw [← firstSpans.lower_eq]; exact lowBelow'⟩
      · exact ⟨lowSecond, highSecond.trans secondSpans.upper_eq,
          by rw [← secondSpans.upper_eq]; exact highBelow'⟩
      · exact backTiles.imp (fun p m _ _ spans => sibling (List.mem_append_right _ m) spans)
      · have full := parentOk.full
        rw [shift.kind] at full
        simpa [NodeKind.size] using full
      · intro isNotRoot
        have minimum := parentOk.minimum isNotRoot
        rw [shift.kind] at minimum
        simpa [NodeKind.size, NodeKind.least] using minimum
    newOk := by
      intro p inside
      simp only [List.mem_cons, List.not_mem_nil, or_false] at inside
      rcases inside with rfl | rfl
      · refine {
          content := ?_
          leaf_iff := by rw [shift.left, ← firstOk.leaf_iff, leftLeaf, leftLeaf']
          below := by rw [lowFirst, highFirst]; exact lowBelow'
          full := by rw [shift.left]; exact shift.leftSize
          minimum := fun _ => by rw [shift.left]; exact shift.leftLeast
          flag := by rw [shift.left, shift.root]; exact firstOk.flag
        }
        rw [shift.left, lowFirst, highFirst]
        exact inner leftContent (fun child inside => by
          rw [← parts']
          exact List.mem_append_left _ inside)
      · refine {
          content := ?_
          leaf_iff := by rw [shift.right, ← secondOk.leaf_iff, rightLeaf, rightLeaf']
          below := by rw [lowSecond, highSecond]; exact highBelow'
          full := by rw [shift.right]; exact shift.rightSize
          minimum := fun _ => by rw [shift.right]; exact shift.rightLeast
          flag := by rw [shift.right, shift.root]; exact secondOk.flag
        }
        rw [shift.right, lowSecond, highSecond]
        exact inner rightContent (fun child inside => by
          rw [← parts']
          exact List.mem_append_right _ inside)
    mem := fun p inside => Or.inl inside
    fresh := by
      intro p beyond allocated
      rw [shift.pages] at allocated
      exact absurd allocated (Nat.not_lt.mpr beyond)
    retired := fun p isOld notNew => absurd isOld notNew
    inherits := by
      intro p s resolves
      rw [forwards]
      exact resolves
    others := fun _ _ => rfl
    heirs := fun s isOld => isOld
    heads := rfl
    linked := by
      intro next _ linked
      obtain ⟨firstLeads, secondLeads, -⟩ := linked
      refine ⟨firstLeads.imp (by rw [shift.left]) ?_, secondLeads.imp (by rw [shift.right]) ?_,
        trivial⟩ <;>
      · intro _ _ _ resolves
        rw [forwards]
        exact resolves
    children := by
      simp only [List.flatMap_cons, List.flatMap_nil, List.append_nil, Tree.children, shift.left,
        shift.right]
      rw [parts, parts']
    entries := by
      simp only [List.flatMap_cons, List.flatMap_nil, List.append_nil, Tree.entries, shift.left,
        shift.right]
      rw [shift.joins.entries_eq, shift.joins'.entries_eq]
    lows := by
      intro s isOld none
      simp only [List.mem_cons, List.not_mem_nil, or_false] at isOld
      rcases isOld with rfl | rfl
      · exact lowFirst.trans none
      · cases lowOld.symm.trans none
    previous := by
      intro p touched x previous
      have isOld : p ∈ [first, second] := touched.elim id id
      simp only [List.mem_cons, List.not_mem_nil, or_false] at isOld
      rw [shift.pages]
      rcases isOld with rfl | rfl
      · rw [shift.left] at previous
        exact inv.previous p x (inv.active firstMember).1 previous
      · rw [shift.right] at previous
        exact inv.previous p x (inv.active secondMember).1 previous
  }

-----------------------------------------------------------------------------------------
-- Merging two siblings
-----------------------------------------------------------------------------------------

/-- The child `first` of `q` is merged into its right neighbour `second` and retired. -/
structure MergeSiblings (N : Nat) (t t' : Tree K V) (q first second : PageId)
    (separator : KeyHandle K) (whole : NodeKind K V) (front back : List (KeyHandle K))
    (before after : List PageId)
    : Prop where
  kind
    : (t.page q).kind
      = .internal (front ++ separator :: back) (before ++ first :: second :: after)
  aligned : before.length = front.length
  lends : q ≠ t.root → (N - 1) / 2 ≤ (front ++ back).length
  joins : Joins (t.page first).kind separator (t.page second).kind whole
  fits : whole.size ≤ N
  root : t'.root = t.root
  len : t'.len = t.len
  pages : t'.pages = t.pages
  left : t'.page first = { t.page first with lowKey := none, kind := .redirect second }
  right
    : t'.page second
      = {
          t.page second with
          lowKey := (t.page first).lowKey
          previous := (t.page first).previous
          kind := whole
        }
  parent
    : t'.page q
      = { t.page q with kind := .internal (front ++ back) (before ++ second :: after) }
  other : ∀ p, p ≠ q → p ≠ first → p ≠ second → t'.page p = t.page p

omit [TotalOrd K] in
/-- A merge retires the first sibling into the second. -/
theorem MergeSiblings.forward_first {first second : PageId} {separator : KeyHandle K}
    {whole : NodeKind K V} {front back : List (KeyHandle K)} {before after : List PageId}
    (merge : MergeSiblings N t t' q first second separator whole front back before after)
    : t'.forward first = some second := by
  rw [Tree.forward_eq, merge.left]
  rfl

omit [TotalOrd K] in
/-- A merge retires no other page. -/
theorem MergeSiblings.forward_other {first second : PageId} {separator : KeyHandle K}
    {whole : NodeKind K V} {front back : List (KeyHandle K)} {before after : List PageId}
    (merge : MergeSiblings N t t' q first second separator whole front back before after)
    {p : PageId} (other : p ≠ first)
    : t'.forward p = t.forward p := by
  obtain ⟨-, secondActive, wholeActive⟩ := merge.joins.target_eq
  rw [Tree.forward_eq, Tree.forward_eq]
  by_cases isParent : p = q
  · subst p
    rw [merge.parent, merge.kind]
    rfl
  · by_cases isSecond : p = second
    · subst p
      rw [secondActive, merge.right]
      exact wholeActive
    · rw [merge.other p isParent other isSecond]

/-- A merge replaces both siblings by the survivor. -/
theorem MergeSiblings.replaced (inv : Inv N t shape) (member : q ∈ shape.row (l + 1))
    {first second : PageId} {separator : KeyHandle K} {whole : NodeKind K V}
    {front back : List (KeyHandle K)} {before after : List PageId}
    (merge : MergeSiblings N t t' q first second separator whole front back before after)
    : Replaced N t t' shape l q (mergeHeir first second) before [first, second] [second]
        after := by
  have slots : t.children q = before ++ ([first, second] ++ after) := by
    simp [Tree.children, merge.kind]
  have firstMember : first ∈ shape.row l := inv.child_mem_row member (by simp [slots])
  have secondMember : second ∈ shape.row l := inv.child_mem_row member (by simp [slots])
  have firstOk := inv.page l first firstMember
  have secondOk := inv.page l second secondMember
  have parentOk := inv.page (l + 1) q member
  have different := inv.neighbours_ne member slots
  have other : ∀ p, p ≠ q → p ∉ [first, second] → t'.page p = t.page p := by
    intro p isParent notOld
    simp only [List.mem_cons, List.not_mem_nil, or_false, not_or] at notOld
    exact merge.other p isParent notOld.1 notOld.2
  have beside : StaysBeside t t' q [first, second] :=
    ⟨⟨_, merge.parent⟩, fun p _ => other p⟩
  obtain ⟨lowOld, lowBelow, highBelow, content⟩ :=
    inv.joined member merge.kind merge.aligned merge.joins
  have below : Below (t.low first) (t.high second) := by
    intro a begins b ends
    exact lt_trans (lowBelow a begins separator rfl) (highBelow separator rfl b ends)
  have lowSecond : t'.low second = t.low first := by rw [Tree.low, merge.right]; rfl
  have highSecond : t'.high second = t.high second := by rw [Tree.high, merge.right]; rfl
  have parts := merge.joins.children_eq
  have olds : ∀ p ∈ [first, second], p ∈ shape.row l := by simp [firstMember, secondMember]
  have inner : Content t'.low t'.high (t.low first) (t.high second) whole := by
    refine beside.content inv olds content (fun child inside => ?_)
    rw [← parts] at inside
    rcases List.mem_append.mp inside with inFirst | inSecond
    · exact ⟨first, by simp, inFirst⟩
    · exact ⟨second, by simp, inSecond⟩
  obtain ⟨leftLeaf, rightLeaf⟩ := merge.joins.isLeaf_eq
  have forwardFirst := merge.forward_first
  have forwardSecond : t'.forward second = none := by
    rw [merge.forward_other different.symm]
    exact (inv.active secondMember).2
  have inherits {p s} (resolves : Resolves t.forward p s)
      : Resolves t'.forward p (mergeHeir first second s) :=
    resolves.retire (fun _ other => merge.forward_other other) (inv.active firstMember).2
      forwardFirst forwardSecond
  exact {
    parent := member
    slots := slots
    slots' := by simp [Tree.children, merge.parent]
    root := merge.root
    len := merge.len
    pages := Nat.le_of_eq merge.pages.symm
    other := fun p isParent notOld _ => other p isParent notOld
    parentPage := ⟨_, merge.parent⟩
    parentOk := by
      obtain ⟨frontTiles, firstSpans, secondSpans, backTiles⟩ :=
        (tiles_pair_iff merge.aligned).mp (inv.content_internal member merge.kind)
      have sibling {p low high} (inside : p ∈ before ++ after)
          (spans : Spans t.low t.high low high p) :=
        beside.sibling inv member slots inside spans
      refine parentOk.withChildren merge.parent merge.root
        ((tiles_iff merge.aligned).mpr ⟨?_, ?_, ?_⟩) ?_ merge.lends
      · exact frontTiles.imp (fun p m _ _ spans => sibling (List.mem_append_left _ m) spans)
      · exact ⟨lowSecond.trans firstSpans.lower_eq, highSecond.trans secondSpans.upper_eq,
          by rw [← firstSpans.lower_eq, ← secondSpans.upper_eq]; exact below⟩
      · exact backTiles.imp (fun p m _ _ spans => sibling (List.mem_append_right _ m) spans)
      · have full := parentOk.full
        simp only [merge.kind, NodeKind.size, List.length_append, List.length_cons] at full
        rw [List.length_append]
        omega
    newOk := by
      intro p inside
      obtain rfl := List.mem_singleton.mp inside
      refine {
        content := by rw [merge.right, lowSecond, highSecond]; exact inner
        leaf_iff := by rw [merge.right, ← secondOk.leaf_iff, rightLeaf]
        below := by rw [lowSecond, highSecond]; exact below
        full := by rw [merge.right]; exact merge.fits
        minimum := ?_
        flag := by rw [merge.right, merge.root]; exact secondOk.flag
      }
      intro isNotRoot
      rw [merge.root] at isNotRoot
      rw [merge.right]
      exact merge.joins.least_le (secondOk.minimum isNotRoot)
    mem := by
      intro p inside
      obtain rfl := List.mem_singleton.mp inside
      exact Or.inl (by simp)
    fresh := by
      intro p beyond allocated
      rw [merge.pages] at allocated
      exact absurd allocated (Nat.not_lt.mpr beyond)
    retired := by
      intro p isOld notNew
      obtain rfl : p = first := by simpa [List.mem_singleton.not.mp notNew] using isOld
      rw [forwardFirst, mergeHeir, if_pos rfl]
    inherits := fun p s resolves => inherits resolves
    others := by
      intro s notOld
      simp only [List.mem_cons, not_or] at notOld
      rw [mergeHeir, if_neg notOld.1]
    heirs := by
      intro s isOld
      simp only [List.mem_cons, List.not_mem_nil, or_false] at isOld
      rcases isOld with rfl | rfl <;> simp [mergeHeir]
    heads := by simp [mergeHeir]
    linked := by
      intro next notOld linked
      obtain ⟨-, secondLeads, -⟩ := linked
      refine ⟨secondLeads.imp (by rw [merge.right]) ?_, trivial⟩
      intro s isNext x resolves
      have moved := inherits resolves
      rwa [mergeHeir, if_neg] at moved
      rintro rfl
      exact notOld _ (by simpa using isNext) (by simp)
    children := by
      simp only [List.flatMap_cons, List.flatMap_nil, List.append_nil, Tree.children, merge.right]
      exact parts.symm
    entries := by
      simp only [List.flatMap_cons, List.flatMap_nil, List.append_nil, Tree.entries, merge.right]
      exact merge.joins.entries_eq.symm
    lows := by
      intro s isOld none
      simp only [List.mem_cons, List.not_mem_nil, or_false] at isOld
      rcases isOld with rfl | rfl
      · rw [mergeHeir, if_pos rfl]
        exact lowSecond.trans none
      · cases lowOld.symm.trans none
    previous := by
      intro p touched x previous
      rw [merge.pages]
      have isOld : p = first ∨ p = second := by simpa [or_assoc] using touched
      by_cases isFirst : p = first
      · subst p
        rw [merge.left] at previous
        exact inv.previous first x (inv.active firstMember).1 previous
      · obtain rfl := isOld.resolve_left isFirst
        rw [merge.right] at previous
        exact inv.previous first x (inv.active firstMember).1 previous
  }

end BLink
