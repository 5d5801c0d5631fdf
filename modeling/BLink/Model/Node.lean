import BLink.Model.Array
import BLink.Library.SortedMap

/-! Pages of the tree and the operations on one page or on a parent with two siblings.
Strong and weak page pointers are page addresses; what a weak pointer upgrades to is decided
where it is upgraded.
-/

namespace BLink

open Library

/-- The address of a page, the target of strong and of weak page pointers. -/
abbrev PageId := Nat

/-- One key/value record, stored in a leaf page. -/
structure Entry (K V : Type) where
  key : KeyHandle K
  value : V
  deriving DecidableEq, Repr

/-- Current role of a page: routing page, page with records, or logically removed page that
forwards stale handles to its survivor.
-/
inductive NodeKind (K V : Type) where
  | internal (keys : List (KeyHandle K)) (children : List PageId)
  | leaf (entries : List (Entry K V))
  | redirect (target : PageId)
  deriving DecidableEq, Repr

/-- One independently latched page. Active pages own the half-open interval from `lowKey` to
`highKey`; `right` is the strong same-level successor, `previous` the weak predecessor.
-/
structure Node (K V : Type) where
  isRoot : Bool
  lowKey : Option (KeyHandle K)
  highKey : Option (KeyHandle K)
  previous : Option PageId
  right : Option PageId
  kind : NodeKind K V
  deriving DecidableEq, Repr

/-- Result of publishing a preemptive split while the left page is latched. -/
structure Split (K : Type) where
  separator : KeyHandle K
  right : PageId
  oldSuccessor : Option PageId

/-- Deferred physical sibling-chain repair after merging left into right. -/
structure MergeRepair where
  predecessor : Option PageId
  retired : PageId
  survivor : PageId
  deriving DecidableEq, Repr

/-- Direction selected by the two-fence stale-route check. -/
inductive Route where
  | restart
  | right (next : PageId)
  | here
  deriving DecidableEq, Repr

variable {K : Type} [TotalOrd K] {V : Type}

namespace Node

omit [TotalOrd K]

/-- The initial empty leaf covering the complete key space. -/
def leafRoot : Node K V where
  isRoot := true
  lowKey := none
  highKey := none
  previous := none
  right := none
  kind := .leaf []

/-- A new root above a preemptively split former root. -/
def rootFromSplit (N : Nat) (left : PageId) (separator : KeyHandle K) (right : PageId)
    : Except Panic (Node K V) := do
  let keys ← Array.push N [] separator
  let children ← Array.push (N + 1) [] left
  let children ← Array.push (N + 1) children right
  return {
    isRoot := true
    lowKey := none
    highKey := none
    previous := none
    right := none
    kind := .internal keys children
  }

/-- The number of records or separators in an active page. -/
def occupancy (node : Node K V) : Nat :=
  match node.kind with
  | .internal keys _ => keys.length
  | .leaf entries => entries.length
  | .redirect _ => 0

/-- The stable minimum occupancy for this page kind. -/
def minimum (N : Nat) (node : Node K V) : Nat :=
  match node.kind with
  | .internal _ _ => (N - 1) / 2
  | .leaf _ => N / 2
  | .redirect _ => 0

/-- `matches!(node.kind, NodeKind::Redirect(_))`. -/
def isRedirect (node : Node K V) : Bool :=
  match node.kind with
  | .redirect _ => true
  | .internal _ _ | .leaf _ => false

end Node

/-- Classifies a key against the page's current role and half-open fences. -/
def Node.route (node : Node K V) (key : Query K) : Except Panic Route :=
  match node.kind with
  | .redirect target => .ok (.right target)
  | .internal _ _ | .leaf _ =>
      if node.lowKey.any (fun low => key.cmp low.key = .lt) then
        .ok .restart
      else if node.highKey.any (fun high => key.cmp high.key ≠ .lt) then do
        let right ← expect "a finite high fence must have a right sibling" node.right
        return .right right
      else
        .ok .here

/-- Splits a stable full page into itself and a new page at address `right`, before another
record or separator is inserted.
-/
def Node.splitFull (N : Nat) (node : Node K V) (leftRef right : PageId)
    : Except Panic (Node K V × Node K V × Split K) := do
  debugAssert (node.occupancy = N)
  let (separator, leftKind, rightKind) ←
    match node.kind with
    | .leaf entries => do
        let (leftEntries, rightEntries) ← Array.splitOff entries (N / 2)
        let first ←
          expect "a full leaf split creates a non-empty right page" rightEntries.head?
        pure (first.key, NodeKind.leaf leftEntries, NodeKind.leaf rightEntries)
    | .internal keys children => do
        let middle := N / 2
        let (separator, keys) ← Array.remove keys middle
        let (leftKeys, rightKeys) ← Array.splitOff keys middle
        let (leftChildren, rightChildren) ← Array.splitOff children (middle + 1)
        debugAssert (leftChildren.length = leftKeys.length + 1)
        debugAssert (rightChildren.length = rightKeys.length + 1)
        pure (separator, .internal leftKeys leftChildren, .internal rightKeys rightChildren)
    | .redirect _ => throw (.unreachable "cannot split a retired page")
  let rightPage : Node K V := {
    isRoot := false
    lowKey := some separator
    highKey := node.highKey
    previous := some leftRef
    right := node.right
    kind := rightKind
  }
  let leftPage := { node with highKey := some separator, right := some right, kind := leftKind }
  return (leftPage, rightPage, { separator, right, oldSuccessor := node.right })

namespace InternalNode

/-- The loop of `child_index` over the separators from `low` to `high`. -/
def childIndexLoop (keys : List (KeyHandle K)) (key : Query K)
    : Nat → Nat → Nat → Except Panic Nat
  | 0, low, high => if low < high then .error .diverged else .ok low
  | budget + 1, low, high =>
      if low < high then do
        let middle := low + (high - low) / 2
        let middleKey ← Array.index keys middle
        -- `middleKey.cmp(key) == Greater`
        if (key.cmp middleKey.key).swap = .gt then
          childIndexLoop keys key budget low middle
        else
          childIndexLoop keys key budget (middle + 1) high
      else
        .ok low

/-- Finds the child whose half-open interval contains `key`, by an upper-bound search that
advances on equality.
-/
def childIndex (keys : List (KeyHandle K)) (key : Query K) : Except Panic Nat :=
  childIndexLoop keys key keys.length 0 keys.length

/-- Installs a newly split sibling immediately after its left child. -/
def insertSplit (N : Nat) (keys : List (KeyHandle K)) (children : List PageId)
    (childIndex : Nat) (separator : KeyHandle K) (right : PageId)
    : Except Panic (List (KeyHandle K) × List PageId) := do
  debugAssert (keys.length < N)
  debugAssert (children.length = keys.length + 1)
  debugAssert (childIndex < children.length)
  let keys ← Array.insert N keys childIndex separator
  let children ← Array.insert (N + 1) children (childIndex + 1) right
  return (keys, children)

end InternalNode

namespace LeafNode

/-- Binary-searches the leaf for a key or its stable insertion position. -/
def search (entries : List (Entry K V)) (key : Query K) : SearchResult :=
  binarySearchBy (fun entry => key.cmp entry.key.key) entries

/-- The position of the least record above the key, or equal to it when `inclusive`. -/
def indexAtOrAfter (entries : List (Entry K V)) (key : Query K) (inclusive : Bool) : Nat :=
  match search entries key with
  | .found index => if inclusive then index else index + 1
  | .missing index => index

/-- Inserts or replaces one record; a new record allocates the key handle `handle`. The
flag tells whether a record was added.
-/
def insert (N : Nat) (entries : List (Entry K V)) (key : K) (value : V) (handle : Nat)
    : Except Panic (List (Entry K V) × Option V × Bool) :=
  match search entries (.ofKey key) with
  | .found index => do
      let old ← Array.index entries index
      let entries ← Array.assign entries index { old with value }
      return (entries, some old.value, false)
  | .missing index => do
      let entries ← Array.insert N entries index { key := { id := handle, key }, value }
      return (entries, none, true)

end LeafNode

omit [TotalOrd K]

/-- Moves one record or edge from `left` into the beginning of `right`. `keys` are the
parent's separators.
-/
def borrowFromLeft (N : Nat) (keys : List (KeyHandle K)) (separatorIndex : Nat)
    (left right : Node K V)
    : Except Panic (List (KeyHandle K) × Node K V × Node K V) := do
  let (boundary, keys, leftKind, rightKind) ←
    match left.kind, right.kind with
    | .leaf leftEntries, .leaf rightEntries => do
        let (entry, leftEntries) ←
          expect "a lending leaf must contain a record" (Array.pop leftEntries)
        let boundary := entry.key
        let rightEntries ← Array.insert N rightEntries 0 entry
        let keys ← Array.assign keys separatorIndex boundary
        pure (boundary, keys, NodeKind.leaf leftEntries, NodeKind.leaf rightEntries)
    | .internal leftKeys leftChildren, .internal rightKeys rightChildren => do
        let (boundary, leftKeys) ←
          expect "a lending internal page must contain a separator" (Array.pop leftKeys)
        let oldParent ← Array.index keys separatorIndex
        let keys ← Array.assign keys separatorIndex boundary
        let (child, leftChildren) ←
          expect "an internal page must retain one more child than key"
            (Array.pop leftChildren)
        let rightKeys ← Array.insert N rightKeys 0 oldParent
        let rightChildren ← Array.insert (N + 1) rightChildren 0 child
        pure
          (boundary, keys, .internal leftKeys leftChildren, .internal rightKeys rightChildren)
    | _, _ => throw (.unreachable "siblings must have the same page kind")
  return (
    keys,
    { left with highKey := some boundary, kind := leftKind },
    { right with lowKey := some boundary, kind := rightKind }
  )

/-- Moves one record or edge from `right` onto the end of `left`. -/
def borrowFromRight (N : Nat) (keys : List (KeyHandle K)) (separatorIndex : Nat)
    (left right : Node K V)
    : Except Panic (List (KeyHandle K) × Node K V × Node K V) := do
  let (boundary, keys, leftKind, rightKind) ←
    match left.kind, right.kind with
    | .leaf leftEntries, .leaf rightEntries => do
        let (entry, rightEntries) ← Array.remove rightEntries 0
        let leftEntries ← Array.push N leftEntries entry
        let first ← expect "a lending right leaf remains non-empty" rightEntries.head?
        let boundary := first.key
        let keys ← Array.assign keys separatorIndex boundary
        pure (boundary, keys, NodeKind.leaf leftEntries, NodeKind.leaf rightEntries)
    | .internal leftKeys leftChildren, .internal rightKeys rightChildren => do
        let (boundary, rightKeys) ← Array.remove rightKeys 0
        let oldParent ← Array.index keys separatorIndex
        let keys ← Array.assign keys separatorIndex boundary
        let (child, rightChildren) ← Array.remove rightChildren 0
        let leftKeys ← Array.push N leftKeys oldParent
        let leftChildren ← Array.push (N + 1) leftChildren child
        pure
          (boundary, keys, .internal leftKeys leftChildren, .internal rightKeys rightChildren)
    | _, _ => throw (.unreachable "siblings must have the same page kind")
  return (
    keys,
    { left with highKey := some boundary, kind := leftKind },
    { right with lowKey := some boundary, kind := rightKind }
  )

/-- Merges an adjacent left page into its right sibling and retires the left. `keys` and
`children` are the parent's.
-/
def mergeLeftIntoRight (N : Nat) (keys : List (KeyHandle K)) (children : List PageId)
    (leftIndex : Nat) (leftRef : PageId) (left : Node K V) (rightRef : PageId)
    (right : Node K V)
    : Except Panic
        (List (KeyHandle K) × List PageId × Node K V × Node K V × MergeRepair) := do
  let leftSlot ← Array.index children leftIndex
  debugAssert (leftSlot = leftRef)
  let rightSlot ← Array.index children (leftIndex + 1)
  debugAssert (rightSlot = rightRef)
  let (separator, keys) ← Array.remove keys leftIndex
  let (removedChild, children) ← Array.remove children leftIndex
  debugAssert (removedChild = leftRef)
  let rightKind ←
    match left.kind, right.kind with
    | .leaf leftEntries, .leaf rightEntries => do
        debugAssert (leftEntries.length + rightEntries.length ≤ N)
        let rightEntries ← Array.prependFrom N rightEntries leftEntries
        pure (NodeKind.leaf rightEntries)
    | .internal leftKeys leftChildren, .internal rightKeys rightChildren => do
        debugAssert (leftKeys.length + 1 + rightKeys.length ≤ N)
        let rightKeys ← Array.insert N rightKeys 0 separator
        let rightKeys ← Array.prependFrom N rightKeys leftKeys
        let rightChildren ← Array.prependFrom (N + 1) rightChildren leftChildren
        pure (.internal rightKeys rightChildren)
    | _, _ => throw (.unreachable "siblings must have the same page kind")
  return (
    keys,
    children,
    { left with lowKey := none, kind := .redirect rightRef },
    { right with lowKey := left.lowKey, previous := left.previous, kind := rightKind },
    { predecessor := left.previous, retired := leftRef, survivor := rightRef }
  )

end BLink
