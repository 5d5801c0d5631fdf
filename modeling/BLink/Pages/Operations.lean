import BLink.Model.Node

/-! What the page operations return on well-formed pages.
Splitting, borrowing and merging all cut and join page contents at a separator, so each of
them is described by one relation.
-/

namespace BLink

open Library

variable {K V : Type}

/-- The number of records or separators. -/
def NodeKind.size : NodeKind K V → Nat
  | .internal keys _ => keys.length
  | .leaf entries => entries.length
  | .redirect _ => 0

/-- The stable minimum occupancy. -/
def NodeKind.least (N : Nat) : NodeKind K V → Nat
  | .internal _ _ => (N - 1) / 2
  | .leaf _ => N / 2
  | .redirect _ => 0

/-- The child pointers. -/
@[simp] def NodeKind.children : NodeKind K V → List PageId
  | .internal _ children => children
  | .leaf _ | .redirect _ => []

/-- The records. -/
@[simp] def NodeKind.entries : NodeKind K V → List (Entry K V)
  | .leaf entries => entries
  | .internal _ _ | .redirect _ => []

/-- The forwarding target of a retired page. -/
@[simp] def NodeKind.target : NodeKind K V → Option PageId
  | .redirect target => some target
  | .internal _ _ | .leaf _ => none

theorem Node.occupancy_eq (node : Node K V) : node.occupancy = node.kind.size := rfl

theorem Node.minimum_eq (N : Nat) (node : Node K V) : node.minimum N = node.kind.least N := rfl

/-- The contents `left` and `right`, with the separator between them, make up `whole`. -/
inductive Joins : NodeKind K V → KeyHandle K → NodeKind K V → NodeKind K V → Prop
  | leaf {left right separator}
    : Joins (.leaf left) separator (.leaf right) (.leaf (left ++ right))
  | internal {leftKeys rightKeys leftChildren rightChildren separator}
    (leftAligned : leftChildren.length = leftKeys.length + 1)
    (rightAligned : rightChildren.length = rightKeys.length + 1)
    : Joins (.internal leftKeys leftChildren) separator (.internal rightKeys rightChildren)
        (.internal (leftKeys ++ separator :: rightKeys) (leftChildren ++ rightChildren))

/-- A leaf's content begins with the record whose key is the boundary. -/
def NodeKind.StartsAt (boundary : KeyHandle K) : NodeKind K V → Prop
  | .leaf entries => ∃ entry ∈ entries.head?, entry.key = boundary
  | .internal _ _ | .redirect _ => True

/-- Joined contents and both parts of them have the same minimum. -/
theorem Joins.least_eq {left right whole : NodeKind K V} {separator : KeyHandle K}
    (joins : Joins left separator right whole) (N : Nat)
    : left.least N = whole.least N ∧ right.least N = whole.least N := by
  cases joins <;> exact ⟨rfl, rfl⟩

/-- Only pages in use are cut or joined. -/
theorem Joins.target_eq {left right whole : NodeKind K V} {separator : KeyHandle K}
    (joins : Joins left separator right whole)
    : left.target = none ∧ right.target = none ∧ whole.target = none := by
  cases joins <;> exact ⟨rfl, rfl, rfl⟩

theorem Joins.least_pos {N : Nat} {left right whole : NodeKind K V}
    {separator : KeyHandle K} (joins : Joins left separator right whole) (three : 3 ≤ N)
    : 0 < left.least N := by
  cases joins <;> simp only [NodeKind.least] <;> omega

/-- A page at its minimum has room. -/
theorem NodeKind.least_lt {N : Nat} (kind : NodeKind K V) (three : 3 ≤ N)
    : kind.least N < N := by
  cases kind <;> simp only [NodeKind.least] <;> omega

/-- Nothing is lost or reordered by joining. -/
theorem Joins.children_eq {left right whole : NodeKind K V} {separator : KeyHandle K}
    (joins : Joins left separator right whole)
    : left.children ++ right.children = whole.children := by
  cases joins <;> rfl

theorem Joins.entries_eq {left right whole : NodeKind K V} {separator : KeyHandle K}
    (joins : Joins left separator right whole)
    : left.entries ++ right.entries = whole.entries := by
  cases joins <;> rfl

/-- Two leaves that are cut anew at another boundary. -/
theorem Joins.leaves {firstEntries secondEntries : List (Entry K V)}
    {left right whole : NodeKind K V} {separator boundary : KeyHandle K}
    (joins : Joins (.leaf firstEntries) separator (.leaf secondEntries) whole)
    (joins' : Joins left boundary right whole)
    : ∃ leftEntries rightEntries,
        left = .leaf leftEntries
        ∧ right = .leaf rightEntries
        ∧ firstEntries ++ secondEntries = leftEntries ++ rightEntries := by
  have same := joins.entries_eq.trans joins'.entries_eq.symm
  cases joins' with
  | leaf => exact ⟨_, _, rfl, rfl, same⟩
  | internal => cases joins

/-- Two internal pages that are cut anew at another boundary. -/
theorem Joins.internals {firstKeys secondKeys : List (KeyHandle K)}
    {firstChildren secondChildren : List PageId} {left right whole : NodeKind K V}
    {separator boundary : KeyHandle K}
    (joins
      : Joins (.internal firstKeys firstChildren) separator
          (.internal secondKeys secondChildren) whole)
    (joins' : Joins left boundary right whole)
    : ∃ leftKeys leftChildren rightKeys rightChildren,
        left = .internal leftKeys leftChildren
        ∧ right = .internal rightKeys rightChildren
        ∧ firstKeys ++ separator :: secondKeys = leftKeys ++ boundary :: rightKeys := by
  have isWhole : whole
      = .internal (firstKeys ++ separator :: secondKeys) (firstChildren ++ secondChildren) := by
    cases joins
    rfl
  clear joins
  cases joins' with
  | leaf => cases isWhole
  | internal _ _ => exact ⟨_, _, _, _, rfl, rfl, ((NodeKind.internal.injEq ..).mp isWhole).1.symm⟩

/-- Joined contents are at most as large as a page when both are at their minimum. -/
theorem Joins.size_le {N : Nat} {left right whole : NodeKind K V} {separator : KeyHandle K}
    (joins : Joins left separator right whole) (three : 3 ≤ N)
    (minimal : left.size ≤ left.least N) (small : right.size ≤ right.least N)
    : whole.size ≤ N := by
  cases joins with
  | leaf =>
      simp only [NodeKind.size, NodeKind.least, List.length_append] at *
      omega
  | internal _ _ =>
      simp only [NodeKind.size, NodeKind.least, List.length_append, List.length_cons] at *
      omega

/-- Joined contents are larger than either part, and keep the role of both. -/
theorem Joins.least_le {N : Nat} {left right whole : NodeKind K V} {separator : KeyHandle K}
    (joins : Joins left separator right whole) (enough : right.least N ≤ right.size)
    : whole.least N ≤ whole.size := by
  cases joins with
  | leaf =>
      simp only [NodeKind.size, NodeKind.least, List.length_append] at *
      omega
  | internal _ _ =>
      simp only [NodeKind.size, NodeKind.least, List.length_append, List.length_cons] at *
      omega

/-- Both parts have room when neither is below its minimum. -/
theorem Joins.sizes_lt {N : Nat} {left right whole : NodeKind K V} {separator : KeyHandle K}
    (joins : Joins left separator right whole) (three : 3 ≤ N) (fits : whole.size ≤ N)
    (leftLeast : left.least N ≤ left.size) (rightLeast : right.least N ≤ right.size)
    : left.size < N ∧ right.size < N := by
  cases joins with
  | leaf =>
      simp only [NodeKind.size, NodeKind.least, List.length_append] at *
      omega
  | internal _ _ =>
      simp only [NodeKind.size, NodeKind.least, List.length_append, List.length_cons] at *
      omega

/-- Joined contents are above the minimum. -/
theorem Joins.least_lt {N : Nat} {left right whole : NodeKind K V} {separator : KeyHandle K}
    (joins : Joins left separator right whole) (three : 3 ≤ N)
    (leftLeast : left.least N ≤ left.size) (rightLeast : right.least N ≤ right.size)
    : whole.least N < whole.size := by
  cases joins with
  | leaf =>
      simp only [NodeKind.size, NodeKind.least, List.length_append] at *
      omega
  | internal _ _ =>
      simp only [NodeKind.size, NodeKind.least, List.length_append, List.length_cons] at *
      omega

/-- A full page splits into two pages, neither of them below its minimum. -/
theorem Node.splitFull_ok {N : Nat} {node : Node K V} (leftRef right : PageId)
    (three : 3 ≤ N) (full : node.kind.size = N)
    (aligned
      : ∀ keys children,
          node.kind = .internal keys children → children.length = keys.length + 1)
    : ∃ separator leftKind rightKind,
        node.splitFull N leftRef right
          = .ok (
              { node with highKey := some separator, right := some right, kind := leftKind },
              {
                isRoot := false
                lowKey := some separator
                highKey := node.highKey
                previous := some leftRef
                right := node.right
                kind := rightKind
              },
              { separator, right, oldSuccessor := node.right }
            )
        ∧ Joins leftKind separator rightKind node.kind
        ∧ rightKind.StartsAt separator
        ∧ leftKind.least N ≤ leftKind.size
        ∧ rightKind.least N ≤ rightKind.size
        ∧ leftKind.size < N
        ∧ rightKind.size < N := by
  obtain ⟨isRoot, lowKey, highKey, previous, successor, kind⟩ := node
  cases kind with
  | redirect target => simp only [NodeKind.size] at full; omega
  | leaf entries =>
      simp only [NodeKind.size] at full
      obtain ⟨front, back, rfl, half⟩ : ∃ front back,
          entries = front ++ back ∧ front.length = N / 2 :=
        ⟨entries.take (N / 2), entries.drop (N / 2), (List.take_append_drop _ _).symm,
          by rw [List.length_take]; omega⟩
      rw [List.length_append] at full
      match back with
      | [] => simp only [List.length_nil] at full; omega
      | first :: back =>
          refine ⟨first.key, .leaf front, .leaf (first :: back), ?_, .leaf, ?_, ?_⟩
          · have cut := Array.splitOff_append front (first :: back)
            rw [half] at cut
            have count : N / 2 + (back.length + 1) = N := by simpa [half] using full
            simp [Node.splitFull, Node.occupancy, cut, half, count]
          · exact ⟨first, rfl, rfl⟩
          · simp only [NodeKind.size, NodeKind.least]
            omega
  | internal keys children =>
      simp only [NodeKind.size] at full
      have count := aligned keys children rfl
      obtain ⟨front, middle, back, rfl, half⟩ : ∃ front middle back,
          keys = front ++ middle :: back ∧ front.length = N / 2 := by
        have inside : N / 2 < keys.length := by omega
        refine ⟨keys.take (N / 2), keys[N / 2], keys.drop (N / 2 + 1), ?_, ?_⟩
        · rw [List.getElem_cons_drop, List.take_append_drop]
        · rw [List.length_take]; omega
      obtain ⟨before, after, rfl, cut⟩ : ∃ before after,
          children = before ++ after ∧ before.length = front.length + 1 :=
        ⟨children.take (front.length + 1), children.drop (front.length + 1),
          (List.take_append_drop _ _).symm, by
            rw [List.length_append] at count
            rw [List.length_take]
            omega⟩
      simp only [List.length_append, List.length_cons] at full count
      have rest : after.length = back.length + 1 := by omega
      refine ⟨middle, .internal front before, .internal back after, ?_, .internal cut rest, ?_, ?_⟩
      · have removed := Array.remove_ok front middle back
        have keysCut := Array.splitOff_append front back
        have childrenCut := Array.splitOff_append before after
        rw [half] at removed keysCut
        rw [cut, half] at childrenCut
        have length : front.length + (back.length + 1) = N := by omega
        simp [Node.splitFull, Node.occupancy, removed, keysCut, childrenCut, cut, rest, length]
      · trivial
      · simp only [NodeKind.size, NodeKind.least]
        omega

-----------------------------------------------------------------------------------------
-- Borrowing and merging
-----------------------------------------------------------------------------------------

section Siblings

variable {N : Nat} (front back : List (KeyHandle K)) {separator : KeyHandle K}
    {left right : Node K V} {whole : NodeKind K V}

/-- The last separator of the left page goes up, the parent's comes down, and the last child moves
over.
-/
theorem borrowFromLeft_internal {boundary : KeyHandle K} {leftKeys rightKeys : List (KeyHandle K)}
    {leftChildren rightChildren : List PageId} {child : PageId}
    (leftKind : left.kind = .internal (leftKeys ++ [boundary]) (leftChildren ++ [child]))
    (rightKind : right.kind = .internal rightKeys rightChildren)
    (keyRoom : rightKeys.length < N) (childRoom : rightChildren.length < N + 1)
    : borrowFromLeft N (front ++ separator :: back) front.length left right
      = .ok (
          front ++ boundary :: back,
          { left with highKey := some boundary, kind := .internal leftKeys leftChildren },
          {
            right with
            lowKey := some boundary
            kind := .internal (separator :: rightKeys) (child :: rightChildren)
          }
        ) := by
  have keyIn := Array.insert_ok N [] rightKeys separator (by simpa using keyRoom)
  have childIn := Array.insert_ok (N + 1) [] rightChildren child (by simpa using childRoom)
  rw [List.nil_append, List.length_nil] at keyIn childIn
  simp [borrowFromLeft, leftKind, rightKind, Array.pop_append, Array.index_append,
    Array.assign_append, keyIn, childIn]

/-- The first separator of the right page goes up, the parent's comes down, and the first child
moves over.
-/
theorem borrowFromRight_internal {boundary : KeyHandle K} {leftKeys rightKeys : List (KeyHandle K)}
    {leftChildren rightChildren : List PageId} {child : PageId}
    (leftKind : left.kind = .internal leftKeys leftChildren)
    (rightKind : right.kind = .internal (boundary :: rightKeys) (child :: rightChildren))
    (keyRoom : leftKeys.length < N) (childRoom : leftChildren.length < N + 1)
    : borrowFromRight N (front ++ separator :: back) front.length left right
      = .ok (
          front ++ boundary :: back,
          {
            left with
            highKey := some boundary
            kind := .internal (leftKeys ++ [separator]) (leftChildren ++ [child])
          },
          { right with lowKey := some boundary, kind := .internal rightKeys rightChildren }
        ) := by
  have keyOut := Array.remove_ok [] boundary rightKeys
  have childOut := Array.remove_ok [] child rightChildren
  rw [List.nil_append, List.length_nil] at keyOut childOut
  simp [borrowFromRight, leftKind, rightKind, keyOut, childOut, Array.index_append,
    Array.assign_append, Array.push_ok N separator keyRoom, Array.push_ok (N + 1) child childRoom]

/-- Borrowing from the left moves the boundary between the siblings one place left. -/
theorem borrowFromLeft_ok (joins : Joins left.kind separator right.kind whole)
    (lends : 0 < left.kind.size) (room : right.kind.size < N)
    : ∃ boundary leftKind rightKind,
        borrowFromLeft N (front ++ separator :: back) front.length left right
          = .ok (
              front ++ boundary :: back,
              { left with highKey := some boundary, kind := leftKind },
              { right with lowKey := some boundary, kind := rightKind }
            )
        ∧ Joins leftKind boundary rightKind whole
        ∧ rightKind.StartsAt boundary
        ∧ leftKind.size + 1 = left.kind.size
        ∧ rightKind.size = right.kind.size + 1 := by
  obtain ⟨leftIsRoot, leftLow, leftHigh, leftPrevious, leftRight, leftKind⟩ := left
  obtain ⟨rightIsRoot, rightLow, rightHigh, rightPrevious, rightRight, rightKind⟩ := right
  cases joins with
  | @leaf leftEntries rightEntries =>
      simp only [NodeKind.size] at lends room
      obtain ⟨init, entry, rfl⟩ : ∃ init entry, leftEntries = init ++ [entry] :=
        ⟨_, _, (List.dropLast_append_getLast (List.ne_nil_of_length_pos lends)).symm⟩
      refine ⟨entry.key, .leaf init, .leaf (entry :: rightEntries), ?_, ?_, ⟨entry, rfl, rfl⟩,
        by simp [NodeKind.size], by simp [NodeKind.size]⟩
      · have pushed := Array.insert_ok N [] rightEntries entry (by simpa)
        rw [List.nil_append, List.length_nil] at pushed
        simp [borrowFromLeft, Array.pop_append, pushed, Array.assign_append]
      · have joined : Joins (.leaf init) entry.key (.leaf (entry :: rightEntries))
            (.leaf (init ++ entry :: rightEntries)) := .leaf
        simpa using joined
  | @internal leftKeys rightKeys leftChildren rightChildren _ leftAligned rightAligned =>
      simp only [NodeKind.size] at lends room
      obtain ⟨keys, boundary, rfl⟩ : ∃ keys boundary, leftKeys = keys ++ [boundary] :=
        ⟨_, _, (List.dropLast_append_getLast (List.ne_nil_of_length_pos lends)).symm⟩
      obtain ⟨children, child, rfl⟩ : ∃ children child, leftChildren = children ++ [child] :=
        ⟨_, _, (List.dropLast_append_getLast (List.ne_nil_of_length_pos (by omega))).symm⟩
      simp only [List.length_append, List.length_singleton] at leftAligned
      refine ⟨boundary, .internal keys children,
        .internal (separator :: rightKeys) (child :: rightChildren), ?_, ?_, trivial,
        by simp [NodeKind.size], by simp [NodeKind.size]⟩
      · exact borrowFromLeft_internal front back rfl rfl room (by omega)
      · have joined : Joins (V := V) (.internal keys children) boundary
            (.internal (separator :: rightKeys) (child :: rightChildren))
            (.internal (keys ++ boundary :: separator :: rightKeys)
              (children ++ child :: rightChildren)) := .internal (by omega) (by simpa)
        simpa using joined

/-- Borrowing from the right moves the boundary between the siblings one place right. -/
theorem borrowFromRight_ok (joins : Joins left.kind separator right.kind whole)
    (three : 3 ≤ N) (lends : right.kind.least N < right.kind.size)
    (room : left.kind.size < N)
    : ∃ boundary leftKind rightKind,
        borrowFromRight N (front ++ separator :: back) front.length left right
          = .ok (
              front ++ boundary :: back,
              { left with highKey := some boundary, kind := leftKind },
              { right with lowKey := some boundary, kind := rightKind }
            )
        ∧ Joins leftKind boundary rightKind whole
        ∧ rightKind.StartsAt boundary
        ∧ leftKind.size = left.kind.size + 1
        ∧ rightKind.size + 1 = right.kind.size := by
  obtain ⟨leftIsRoot, leftLow, leftHigh, leftPrevious, leftRight, leftKind⟩ := left
  obtain ⟨rightIsRoot, rightLow, rightHigh, rightPrevious, rightRight, rightKind⟩ := right
  cases joins with
  | @leaf leftEntries rightEntries =>
      simp only [NodeKind.size, NodeKind.least] at lends room
      match rightEntries with
      | [] | [_] => simp only [List.length_nil, List.length_singleton] at lends; omega
      | entry :: next :: rest =>
          refine ⟨next.key, .leaf (leftEntries ++ [entry]), .leaf (next :: rest), ?_, ?_,
            ⟨next, rfl, rfl⟩, by simp [NodeKind.size], by simp [NodeKind.size]⟩
          · have removed := Array.remove_ok [] entry (next :: rest)
            rw [List.nil_append, List.length_nil] at removed
            simp [borrowFromRight, removed, Array.push_ok N entry room, Array.assign_append]
          · have joined : Joins (.leaf (leftEntries ++ [entry])) next.key (.leaf (next :: rest))
                (.leaf (leftEntries ++ [entry] ++ next :: rest)) := .leaf
            simpa using joined
  | @internal leftKeys rightKeys leftChildren rightChildren _ leftAligned rightAligned =>
      simp only [NodeKind.size, NodeKind.least] at lends room
      match rightKeys, rightChildren with
      | [], _ => simp only [List.length_nil] at lends; omega
      | _ :: _, [] => simp only [List.length_nil, List.length_cons] at rightAligned; omega
      | boundary :: keys, child :: children =>
          simp only [List.length_cons] at rightAligned
          refine ⟨boundary, .internal (leftKeys ++ [separator]) (leftChildren ++ [child]),
            .internal keys children, ?_, ?_, trivial, by simp [NodeKind.size],
            by simp [NodeKind.size]⟩
          · exact borrowFromRight_internal front back rfl rfl room (by omega)
          · have joined : Joins (V := V)
                (.internal (leftKeys ++ [separator]) (leftChildren ++ [child])) boundary
                (.internal keys children)
                (.internal (leftKeys ++ [separator] ++ boundary :: keys)
                  (leftChildren ++ [child] ++ children)) := .internal (by simpa) (by omega)
            simpa using joined

/-- Merging joins both contents in the right sibling and retires the left one. -/
theorem mergeLeftIntoRight_ok {leftRef rightRef : PageId} {before after : List PageId}
    (joins : Joins left.kind separator right.kind whole) (fits : whole.size ≤ N)
    (aligned : before.length = front.length)
    : mergeLeftIntoRight N (front ++ separator :: back)
          (before ++ leftRef :: rightRef :: after) front.length leftRef left rightRef right
        = .ok (
            front ++ back,
            before ++ rightRef :: after,
            { left with lowKey := none, kind := .redirect rightRef },
            { right with lowKey := left.lowKey, previous := left.previous, kind := whole },
            { predecessor := left.previous, retired := leftRef, survivor := rightRef }
          ) := by
  obtain ⟨leftIsRoot, leftLow, leftHigh, leftPrevious, leftRight, leftKind⟩ := left
  obtain ⟨rightIsRoot, rightLow, rightHigh, rightPrevious, rightRight, rightKind⟩ := right
  have leftSlot := Array.index_append before leftRef (rightRef :: after)
  have rightSlot : Array.index (before ++ leftRef :: rightRef :: after) (before.length + 1)
      = .ok rightRef := by
    have slot := Array.index_append (before ++ [leftRef]) rightRef after
    simpa using slot
  have keyOut := Array.remove_ok front separator back
  have childOut := Array.remove_ok before leftRef (rightRef :: after)
  rw [aligned] at leftSlot rightSlot childOut
  cases joins with
  | @leaf leftEntries rightEntries =>
      simp only [NodeKind.size, List.length_append] at fits
      have joined := Array.prependFrom_ok N rightEntries leftEntries (by omega)
      simp [mergeLeftIntoRight, leftSlot, rightSlot, keyOut, childOut, joined, fits]
  | @internal leftKeys rightKeys leftChildren rightChildren _ leftAligned rightAligned =>
      simp only [NodeKind.size, List.length_append, List.length_cons] at fits
      have keyIn := Array.insert_ok N [] rightKeys separator (by rw [List.nil_append]; omega)
      rw [List.nil_append, List.length_nil] at keyIn
      have keys := Array.prependFrom_ok N (separator :: rightKeys) leftKeys
        (by simp only [List.length_cons]; omega)
      have children := Array.prependFrom_ok (N + 1) rightChildren leftChildren (by omega)
      have debug : leftKeys.length + 1 + rightKeys.length ≤ N := by omega
      simp [mergeLeftIntoRight, leftSlot, rightSlot, keyOut, childOut, keyIn, keys, children,
        debug]

end Siblings

-----------------------------------------------------------------------------------------
-- Routing and splicing in a parent
-----------------------------------------------------------------------------------------

section Parent

/-- The new sibling goes right after the page that was split. -/
theorem InternalNode.insertSplit_ok {N : Nat} {front back : List (KeyHandle K)}
    {before after : List PageId} {child : PageId} (separator : KeyHandle K) (right : PageId)
    (aligned : before.length = front.length)
    (count : (before ++ child :: after).length = (front ++ back).length + 1)
    (room : (front ++ back).length < N)
    : insertSplit N (front ++ back) (before ++ child :: after) front.length separator right
        = .ok (front ++ separator :: back, before ++ child :: right :: after) := by
  have keys := Array.insert_ok N front back separator room
  have children := Array.insert_ok (N + 1) (before ++ [child]) after right (by
    simp only [List.length_append, List.length_cons, List.length_nil] at count room ⊢
    omega)
  simp only [List.length_append, List.length_singleton, List.append_assoc, List.singleton_append,
    aligned] at children
  have inside : front.length < (front ++ back).length + 1 := by
    rw [List.length_append]
    omega
  simp only [insertSplit, room, count, inside, debugAssert_of, ok_bind, keys, children]
  rfl

variable [TotalOrd K]

/-- Whether a search key belongs to a page with the given fences. -/
def Covers (low high : Option (KeyHandle K)) (key : Query K) : Prop :=
  (∀ lowest ∈ low, key.cmp lowest.key ≠ .lt) ∧ ∀ bound ∈ high, key.cmp bound.key = .lt

/-- The search key lies below the lower fence. -/
def Under (low : Option (KeyHandle K)) (key : Query K) : Prop :=
  ∃ lowest ∈ low, key.cmp lowest.key = .lt

/-- The search key lies at the upper fence, or above it. -/
def Beyond (high : Option (KeyHandle K)) (key : Query K) : Prop :=
  ∃ bound ∈ high, key.cmp bound.key ≠ .lt

theorem Under.not_covers {low high : Option (KeyHandle K)} {key : Query K}
    (under : Under low key)
    : ¬ Covers low high key := by
  obtain ⟨lowest, isLow, lower⟩ := under
  exact fun covers => covers.1 lowest isLow lower

theorem Beyond.not_covers {low high : Option (KeyHandle K)} {key : Query K}
    (beyond : Beyond high key)
    : ¬ Covers low high key := by
  obtain ⟨bound, isHigh, notLower⟩ := beyond
  exact fun covers => notLower (covers.2 bound isHigh)

/-- A key of an interval belongs to the part on its side of a separator. -/
theorem Covers.cut {low high : Option (KeyHandle K)} {key : Query K} (covers : Covers low high key)
    (separator : KeyHandle K)
    : (key.cmp separator.key = .lt → Covers low (some separator) key)
      ∧ (key.cmp separator.key ≠ .lt → Covers (some separator) high key) := by
  constructor
  · intro below
    refine ⟨covers.1, ?_⟩
    intro bound isBound
    obtain rfl := Option.some.inj isBound
    exact below
  · intro notBelow
    refine ⟨?_, covers.2⟩
    intro lowest isLowest
    obtain rfl := Option.some.inj isLowest
    exact notBelow

/-- A key that is routed to the page itself belongs to it. -/
theorem Node.covers_of_route {node : Node K V} {key : Query K}
    (routed : node.route key = .ok .here)
    : Covers node.lowKey node.highKey key := by
  have unfolded
      : (if node.lowKey.any (fun low => key.cmp low.key = .lt) then .ok .restart
        else if node.highKey.any (fun high => key.cmp high.key ≠ .lt) then do
          let right ← expect "a finite high fence must have a right sibling" node.right
          return .right right
        else .ok .here : Except Panic Route) = .ok .here := by
    rw [Node.route] at routed
    cases kind : node.kind <;> rw [kind] at routed
    · exact routed
    · exact routed
    · cases routed
  split_ifs at unfolded with under beyond
  · cases unfolded
  · cases right : node.right <;> rw [right] at unfolded <;> cases unfolded
  · constructor
    · intro lowest isLow lower
      apply under
      rw [Option.mem_def.mp isLow]
      simpa using lower
    · intro bound isHigh
      by_contra notLower
      apply beyond
      rw [Option.mem_def.mp isHigh]
      simpa using notLower

/-- The bisection keeps the cut inside its window, by induction on the budget. -/
theorem InternalNode.childIndexLoop_ok (keys : List (KeyHandle K)) (key : Query K)
    (budget : Nat) {low high : Nat} (window : low ≤ high) (bound : high ≤ keys.length)
    (enough : high - low ≤ budget)
    (reached : ∀ i (inside : i < keys.length), i < low → key.cmp keys[i].key ≠ .lt)
    (passed : ∀ i (inside : i < keys.length), high ≤ i → key.cmp keys[i].key = .lt)
    (monotone
      : ∀ i j (hi : i < keys.length) (hj : j < keys.length), i ≤ j →
          key.cmp keys[i].key = .lt → key.cmp keys[j].key = .lt)
    : ∃ index,
        childIndexLoop keys key budget low high = .ok index
        ∧ index ≤ keys.length
        ∧ (∀ i (inside : i < keys.length), i < index → key.cmp keys[i].key ≠ .lt)
        ∧ ∀ i (inside : i < keys.length), index ≤ i → key.cmp keys[i].key = .lt := by
  induction budget generalizing low high with
  | zero =>
      obtain rfl : low = high := by omega
      exact ⟨low, by simp [childIndexLoop], bound, reached, passed⟩
  | succ budget ih =>
      by_cases empty : low < high
      · have inside : low + (high - low) / 2 < keys.length := by omega
        have middle : Array.index keys (low + (high - low) / 2)
            = .ok keys[low + (high - low) / 2] := by
          simp [Array.index, inside]
        simp only [childIndexLoop, empty, if_true, middle, ok_bind]
        by_cases above : key.cmp keys[low + (high - low) / 2].key = .lt
        · simp only [above, Ordering.swap, if_true]
          refine ih (by omega) (by omega) (by omega) reached ?_
          intro i bounded le
          exact monotone _ i inside bounded le above
        · have below : ¬ (key.cmp keys[low + (high - low) / 2].key).swap = .gt := by
            cases h : key.cmp keys[low + (high - low) / 2].key <;> simp_all [Ordering.swap]
          simp only [below, if_false]
          refine ih (by omega) bound (by omega) ?_ passed
          intro i bounded lt lower
          exact above (monotone i _ bounded inside (by omega) lower)
      · obtain rfl : low = high := by omega
        exact ⟨low, by simp [childIndexLoop], bound, reached, passed⟩

/-- The chosen child's position cuts the separators at the search key. -/
theorem InternalNode.childIndex_ok {keys : List (KeyHandle K)}
    (sorted : keys.Pairwise (· < ·)) (key : Query K)
    : ∃ front back,
        keys = front ++ back
        ∧ childIndex keys key = .ok front.length
        ∧ (∀ separator ∈ front, key.cmp separator.key ≠ .lt)
        ∧ ∀ separator ∈ back, key.cmp separator.key = .lt := by
  obtain ⟨index, found, bound, reached, passed⟩ :=
    childIndexLoop_ok keys key keys.length (Nat.zero_le _) (Nat.le_refl _) (by omega)
      (by omega) (by omega) (by
        intro i j hi hj le lower
        rcases Nat.lt_or_eq_of_le le with lt | rfl
        · exact key.lt_of_le lower
            (isLE_of_compare_lt (List.pairwise_iff_getElem.mp sorted i j hi hj lt))
        · exact lower)
  refine ⟨keys.take index, keys.drop index, (List.take_append_drop _ _).symm, ?_, ?_, ?_⟩
  · rw [List.length_take, Nat.min_eq_left bound]
    exact found
  · intro separator member
    obtain ⟨i, inside, rfl⟩ := List.mem_iff_getElem.mp member
    rw [List.length_take] at inside
    rw [List.getElem_take]
    exact reached i (by omega) (by omega)
  · intro separator member
    obtain ⟨i, inside, rfl⟩ := List.mem_iff_getElem.mp member
    rw [List.length_drop] at inside
    rw [List.getElem_drop]
    exact passed _ (by omega) (by omega)

/-- A key that belongs to a page belongs to the child at whose position it cuts the separators. -/
theorem Covers.between {low high : Option (KeyHandle K)} {key : Query K}
    {front back : List (KeyHandle K)} (covers : Covers low high key)
    (reached : ∀ separator ∈ front, key.cmp separator.key ≠ .lt)
    (passed : ∀ separator ∈ back, key.cmp separator.key = .lt)
    : Covers (front.getLast?.or low) (back.head?.or high) key := by
  constructor
  · intro lowest begins
    cases last : front.getLast? with
    | none =>
        rw [last, Option.none_or] at begins
        exact covers.1 lowest begins
    | some separator =>
        rw [last, Option.some_or, Option.mem_def, Option.some.injEq] at begins
        subst lowest
        exact reached separator (List.mem_of_getLast? last)
  · intro bound ends
    cases first : back.head? with
    | none =>
        rw [first, Option.none_or] at ends
        exact covers.2 bound ends
    | some separator =>
        rw [first, Option.some_or, Option.mem_def, Option.some.injEq] at ends
        subst bound
        exact passed separator (List.mem_of_head? first)

end Parent

end BLink
