import BLink.Sections.LeafUpdate

/-! The sections of the structural insertion never fail, and have the effects listed for
them.
-/

namespace BLink

open Library

variable {K V : Type} [TotalOrd K]

variable {N : Nat} {t : Tree K V} {shape : Shape} {l : Nat} {p c : PageId}

omit [TotalOrd K] in
theorem Node.isRedirect_eq (node : Node K V) : node.isRedirect = node.kind.target.isSome := by
  rw [Node.isRedirect]
  cases node.kind <;> rfl

namespace Inv

theorem isRedirect_eq_false (inv : Inv N t shape) (member : p ∈ shape.row l)
    : (t.page p).isRedirect = false := by
  rw [Node.isRedirect_eq, ← Tree.forward_eq, (inv.active member).2]
  rfl

/-- An internal page has one child more than separators. -/
theorem aligned (inv : Inv N t shape) (member : p ∈ shape.row l)
    {keys : List (KeyHandle K)} {children : List PageId}
    (kind : (t.page p).kind = .internal keys children)
    : children.length = keys.length + 1 :=
  (inv.content_internal member kind).length

/-- The root has no right sibling. -/
theorem root_right (inv : Inv N t shape) : (t.page t.root).right = none := by
  rcases inv.right_cases inv.root_mem with ⟨last, -⟩ | ⟨_, _, _, _, _, _, bounded⟩
  · exact last
  · exact absurd inv.root_high bounded

end Inv

-----------------------------------------------------------------------------------------
-- Splitting the root
-----------------------------------------------------------------------------------------

/-- The tree after a new root was put above the old one, and before the old one is split. -/
def Tree.grown (t : Tree K V) : Tree K V where
  root := t.pages
  len := t.len
  page p :=
    if p = t.pages then {
      isRoot := true
      lowKey := none
      highKey := none
      previous := none
      right := none
      kind := .internal [] [t.root]
    }
    else if p = t.root then { t.page t.root with isRoot := false }
    else t.page p
  pages := t.pages + 1
  handles := t.handles

theorem growRoot_grown (inv : Inv N t shape)
    (enough : (t.page t.root).kind.least N ≤ (t.page t.root).kind.size)
    : GrowRoot N t t.grown where
  enough := enough
  root := rfl
  len := rfl
  pages := rfl
  new := if_pos rfl
  old := by
    rw [Tree.grown]
    simp [Nat.ne_of_lt inv.root_active.1]
  other := by
    intro p notNew notRoot
    rw [Tree.grown]
    simp [notNew, notRoot]

omit [TotalOrd K] in
theorem rootFromSplit_ok (three : 3 ≤ N) (left : PageId) (separator : KeyHandle K)
    (right : PageId)
    : Node.rootFromSplit (V := V) N left separator right
      = .ok {
          isRoot := true
          lowKey := none
          highKey := none
          previous := none
          right := none
          kind := .internal [separator] [left, right]
        } := by
  have keys : Array.push N [] separator = .ok [separator] :=
    Array.push_ok N separator (by simp; omega)
  have first : Array.push (N + 1) [] left = .ok [left] := Array.push_ok (N + 1) left (by simp)
  have second : Array.push (N + 1) [left] right = .ok [left, right] :=
    Array.push_ok (N + 1) right (by simp; omega)
  simp only [Node.rootFromSplit, keys, first, second, ok_bind]
  rfl

omit [TotalOrd K] in
theorem least_le_of_full {kind : NodeKind K V} (full : kind.size = N)
    : kind.least N ≤ kind.size := by
  rw [full]
  cases kind <;> simp only [NodeKind.least] <;> omega

theorem splitRootIfFull_room (active : t.forward t.root = none)
    (room : (t.page t.root).kind.size < N) (key : K) (value : V)
    : t.splitRootIfFull N key value = .ok (t, .insertRoot key value) := by
  rw [Tree.splitRootIfFull]
  cases kind : (t.page t.root).kind with
  | redirect target =>
      rw [Tree.forward_eq, kind] at active
      cases active
  | internal | leaf =>
      rw [kind] at room
      simp only [Node.occupancy_eq, kind, room, if_true]

theorem splitRootIfFull_splits {leftPage rightPage rootPage : Node K V} {split : Split K}
    (active : t.forward t.root = none) (full : ¬ (t.page t.root).kind.size < N)
    (pages
      : (t.page t.root).splitFull N t.root (t.pages + 1) = .ok (leftPage, rightPage, split))
    (root : Node.rootFromSplit N t.root split.separator split.right = .ok rootPage)
    (key : K) (value : V)
    : t.splitRootIfFull N key value
      = .ok (
          {
            (((t.allocate 2).setPage t.root { leftPage with isRoot := false }).setPage
                (t.pages + 1) rightPage).setPage t.pages rootPage with
            root := t.pages
          },
          .repairSplitBacklink key value (t.pages + 1) split.oldSuccessor none [t.root]
        ) := by
  rw [Tree.splitRootIfFull]
  cases kind : (t.page t.root).kind with
  | redirect target =>
      rw [Tree.forward_eq, kind] at active
      cases active
  | internal | leaf =>
      rw [kind] at full
      simp only [Node.occupancy_eq, kind, full, if_false, pages, root, ok_bind]
      rfl

theorem splitRootIfFull_ok (inv : Inv N t shape) (three : 3 ≤ N) (key : K) (value : V)
    (latched : Bool)
    : ∃ t' pc',
        t.splitRootIfFull N key value = .ok (t', pc')
        ∧ Inserts N t shape latched (.splitRootIfFull key value) t' pc' := by
  have active := inv.root_active.2
  have bound := (inv.page _ _ inv.root_mem).full
  by_cases room : (t.page t.root).kind.size < N
  · exact ⟨_, _, splitRootIfFull_room active room key value, .rootStays room⟩
  · have full : (t.page t.root).kind.size = N := by omega
    obtain ⟨separator, leftKind, rightKind, split, joins, starts, leftLeast, rightLeast,
        leftSize, rightSize⟩ :=
      Node.splitFull_ok t.root (t.pages + 1) three full
        (fun keys children kind => inv.aligned inv.root_mem kind)
    have notNew : t.root ≠ t.pages := Nat.ne_of_lt inv.root_active.1
    have notRight : t.root ≠ t.pages + 1 := Nat.ne_of_lt (Nat.lt_succ_of_lt inv.root_active.1)
    rw [splitRootIfFull_splits active room split (rootFromSplit_ok three ..) key value,
      inv.root_right]
    refine ⟨_, _, rfl, @Inserts.rootSplits _ _ _ _ _ _ _ _ _ _ _ separator leftKind rightKind
      (growRoot_grown inv (least_le_of_full full)) ?_⟩
    exact {
      kind := by simp [Tree.grown]
      aligned := rfl
      room := by simp only [List.append_nil, List.length_nil]; omega
      joins := by simpa [Tree.grown, notNew] using joins
      starts := starts
      leftLeast := leftLeast
      rightLeast := rightLeast
      leftSize := Nat.le_of_lt leftSize
      rightSize := Nat.le_of_lt rightSize
      fresh := rfl
      root := rfl
      len := rfl
      pages := rfl
      left := by simp [Tree.grown, notNew, notRight]
      right := by simp [Tree.grown, notNew, inv.root_right]
      parent := by simp [Tree.grown]
      other := by
        intro q notParent notOld isRight
        simp [Tree.grown, notParent, notOld, isRight]
    }

-----------------------------------------------------------------------------------------
-- One pass of the insertion
-----------------------------------------------------------------------------------------

/-- The tree after a full child and its new sibling and then their parent were stored. -/
def Tree.afterSplit (t : Tree K V) (p c : PageId) (left right parent : Node K V) : Tree K V :=
  (((t.allocate 1).setPage c left).setPage t.pages right).setPage p parent

/-- A full child of a page with room is split, and the new page is installed in its parent. -/
theorem splitChild_ok (inv : Inv N t shape) (three : 3 ≤ N) (member : p ∈ shape.row (l + 1))
    {front back : List (KeyHandle K)} {before after : List PageId}
    (kind : (t.page p).kind = .internal (front ++ back) (before ++ c :: after))
    (aligned : before.length = front.length) (room : (front ++ back).length < N)
    (full : (t.page c).kind.size = N)
    : ∃ separator leftKind rightKind,
        (t.page c).splitFull N c t.pages
          = .ok (
              {
                t.page c with
                highKey := some separator
                right := some t.pages
                kind := leftKind
              },
              {
                isRoot := false
                lowKey := some separator
                highKey := (t.page c).highKey
                previous := some c
                right := (t.page c).right
                kind := rightKind
              },
              { separator, right := t.pages, oldSuccessor := (t.page c).right }
            )
        ∧ InternalNode.insertSplit N (front ++ back) (before ++ c :: after) front.length separator
            t.pages
          = .ok (front ++ separator :: back, before ++ c :: t.pages :: after)
        ∧ SplitChild N t
            (t.afterSplit p c
              {
                t.page c with
                highKey := some separator
                right := some t.pages
                kind := leftKind
              }
              {
                isRoot := false
                lowKey := some separator
                highKey := (t.page c).highKey
                previous := some c
                right := (t.page c).right
                kind := rightKind
              }
              {
                t.page p with
                kind := .internal (front ++ separator :: back) (before ++ c :: t.pages :: after)
              })
            p c t.pages separator leftKind rightKind front back before after := by
  have childMember : c ∈ shape.row l := inv.child_mem member kind (by simp)
  have count := inv.aligned member kind
  obtain ⟨separator, leftKind, rightKind, split, joins, starts, leftLeast, rightLeast, leftSize,
      rightSize⟩ :=
    Node.splitFull_ok c t.pages three full (fun keys children kind => inv.aligned childMember kind)
  have spliced := InternalNode.insertSplit_ok separator t.pages aligned count room
  have notChild : p ≠ c := inv.ne_of_level member childMember (by omega)
  have parentOld : p ≠ t.pages := Nat.ne_of_lt (inv.allocated member)
  have childOld : c ≠ t.pages := Nat.ne_of_lt (inv.allocated childMember)
  refine ⟨separator, leftKind, rightKind, split, spliced, ?_⟩
  exact {
    kind := kind
    aligned := aligned
    room := room
    joins := joins
    starts := starts
    leftLeast := leftLeast
    rightLeast := rightLeast
    leftSize := Nat.le_of_lt leftSize
    rightSize := Nat.le_of_lt rightSize
    fresh := rfl
    root := rfl
    len := rfl
    pages := rfl
    left := by simp [Tree.afterSplit, notChild.symm, childOld]
    right := by simp [Tree.afterSplit, parentOld.symm]
    parent := by simp [Tree.afterSplit]
    other := by
      intro q notParent notLeft notRight
      simp [Tree.afterSplit, notParent, notLeft, notRight]
  }

/-- A key of the split page belongs to the half on its side of the separator. -/
theorem SplitChild.covers {t' : Tree K V} {r : PageId} {separator : KeyHandle K}
    {leftKind rightKind : NodeKind K V} {front back : List (KeyHandle K)}
    {before after : List PageId}
    (split : SplitChild N t t' p c r separator leftKind rightKind front back before after)
    {key : Query K} (covers : Covers (t.low c) (t.high c) key)
    : (key.cmp separator.key = .lt → Covers (t'.low c) (t'.high c) key)
      ∧ (key.cmp separator.key ≠ .lt → Covers (t'.low r) (t'.high r) key) := by
  simp only [Tree.low, Tree.high, split.left, split.right]
  exact covers.cut separator

theorem insertAttempt_ok (inv : Inv N t shape) (three : 3 ≤ N) (key : K) (value : V)
    (latched : Bool) (allocated : p < t.pages)
    : ∃ t' pc',
        t.insertAttempt N key value p latched = .ok (t', pc')
        ∧ Inserts N t shape latched (.insertAttempt key value p) t' pc' := by
  obtain ⟨route, routed, routes⟩ := inv.route_ok allocated (.ofKey key)
  simp only [Tree.insertAttempt, routed, ok_bind]
  cases routes with
  | forward retired => exact ⟨_, _, rfl, .move (.forward retired)⟩
  | restart member under =>
      exact ⟨_, _, rfl, .retry (fun _ _ owns => absurd owns.covers under.not_covers)⟩
  | right member points inRow resolves beyond =>
      exact ⟨_, _, rfl, .move (.right member points inRow resolves beyond)⟩
  | @here l member covers =>
      by_cases full : (t.page p).occupancy = N
      · exact ⟨_, _, by simp only [full, if_true]; rfl, .retry (fun _ _ _ => full)⟩
      · simp only [full, if_false]
        have bound := (inv.page l p member).full
        rw [← Node.occupancy_eq] at bound
        cases l with
        | zero =>
            obtain ⟨entries, kind⟩ := inv.leaf_of_zero member
            rw [Node.occupancy_eq, kind] at full bound
            obtain ⟨t', entries', replaced, result, inserts, updated⟩ :=
              insertRecord_ok inv value ⟨member, kind, covers⟩
                (fun _ => Nat.lt_of_le_of_ne bound full)
            simp only [kind, result, ok_bind]
            exact ⟨_, _, rfl, .done ⟨member, kind, covers⟩ inserts updated⟩
        | succ l =>
            obtain ⟨keys, children, kind⟩ := inv.internal_of_pos member
            obtain ⟨front, back, before, c, after, descends⟩ :=
              inv.descend_ok member kind (.ofKey key)
            have childMember := descends.member
            have childCovers := descends.covers covers
            have childActive := inv.isRedirect_eq_false childMember
            simp only [kind, descends.index, descends.slot, ok_bind]
            by_cases locked : latched = false
            · refine ⟨_, _, by simp only [locked, if_true]; rfl, .retry (fun isLatched => ?_)⟩
              rw [locked] at isLatched
              cases isLatched
            · simp only [locked, childActive]
              by_cases childFull : (t.page c).occupancy = N
              · rw [Node.occupancy_eq, kind] at full bound
                obtain ⟨rfl, rfl, aligned, index, -, -, -, -, -⟩ := descends
                obtain ⟨separator, leftKind, rightKind, result, spliced, split⟩ :=
                  splitChild_ok inv three member kind aligned (Nat.lt_of_le_of_ne bound full)
                    childFull
                have sides := split.covers childCovers
                simp only [childFull, if_true, result, ok_bind, spliced]
                refine ⟨_, _, rfl, .split member split ?_ ?_⟩
                · split_ifs <;> simp
                · split_ifs with goesRight
                  · exact sides.2 goesRight
                  · exact sides.1 (not_not.mp goesRight)
              · simp only [childFull, if_false]
                have room := Nat.lt_of_le_of_ne (inv.page l c childMember).full childFull
                exact ⟨_, _, rfl, .move (.child ⟨member, covers⟩ ⟨childMember, childCovers⟩ room)⟩

theorem repairSplitBacklink_ok (inv : Inv N t shape) (key : K) (value : V)
    {newRight : PageId} (oldSuccessor target : Option PageId) (held : List PageId)
    (latched : Bool) (allocated : newRight < t.pages)
    : ∃ t' pc',
        t.repairSplitBacklink key value newRight oldSuccessor target = .ok (t', pc')
        ∧ Inserts N t shape latched
            (.repairSplitBacklink key value newRight oldSuccessor target held) t' pc' := by
  cases oldSuccessor with
  | none => exact ⟨_, _, rfl, .repairSkipped (by rintro _ ⟨⟩)⟩
  | some successor =>
      rcases inv.retired_or_mem allocated with ⟨forward, retired⟩ | ⟨l, member⟩
      · have redirect : (t.page newRight).isRedirect = true := by
          rw [Node.isRedirect_eq, ← Tree.forward_eq, retired]
          rfl
        refine ⟨_, _, if_pos redirect, .repairSkipped (fun _ _ active => ?_)⟩
        rw [retired] at active
        cases active
      · have active := inv.isRedirect_eq_false member
        simp only [Tree.repairSplitBacklink, active]
        by_cases points : (t.page newRight).right = some successor
        · rcases inv.right_cases member with ⟨last, -⟩ | ⟨next, s, points', inRow, resolves, -⟩
          · rw [last] at points
            cases points
          · rw [points, Option.some.injEq] at points'
            subst next
            have followed := resolves.follow_eq t.pages (fun q forwards => by
              obtain ⟨target, there⟩ := Option.ne_none_iff_exists'.mp forwards
              exact (inv.forwards q target there).1)
            refine ⟨_, _, ?_, .repaired member points inRow resolves⟩
            simp [points, followed, Tree.link]
        · refine ⟨_, _, by simp [points],
            .repairSkipped (fun s isSuccessor _ => ?_)⟩
          rw [Option.mem_def, Option.some.injEq] at isSuccessor
          rwa [← isSuccessor]

end BLink
