import BLink.Library.Forwarding
import BLink.Model.Cursor

/-! The tree and its operations, cut into latched sections.
A section is everything an operation does between acquiring and releasing page or root
latches. Each function below is one section: it takes the tree, the local variables with
which the operation enters the section, and whether the section's `try_write` attempts
succeed; it returns the tree and where the operation continues.
-/

namespace BLink

open Library

/-- All pages with the root slot and the record counter. `page` gives the content of each
page allocation, `pages` and `handles` count the page and key allocations so far.
-/
structure Tree (K V : Type) where
  root : PageId
  len : Nat
  page : PageId → Node K V
  pages : Nat
  handles : Nat

/-- What an operation reads from the leaf that `leaf_read_for` finds. -/
inductive ReadTask (K : Type) [TotalOrd K] where
  | get (key : Query K)
  | containsKey (key : Query K)
  | entryAtOrAfter (cursor : Nat) (key : Query K) (inclusive : Bool)

/-- What an operation does to the leaf that `leaf_write_for` finds. -/
inductive WriteTask (K V : Type) [TotalOrd K] where
  | getMut (key : Query K) (write : V → V)
  | tryInsertWithoutSplit (key : K) (value : V)
  | tryRemoveWithoutRebalance (key : Query K)

/-- An operation that descends to a leaf by key, with a shared or an exclusive last latch. -/
inductive Task (K V : Type) [TotalOrd K] where
  | read (task : ReadTask K)
  | write (task : WriteTask K V)

/-- An operation's result. -/
inductive Response (K V : Type) where
  | previous (value : Option V)
  | entry (found : Option (Entry K V))
  | flag (value : Bool)
  | count (value : Nat)
  | unit
  deriving DecidableEq, Repr

/-- Where a running operation is: the section it enters next, with its local variables.
`held` lists the further strong page references that the operation's local variables keep
alive while it repairs links. A `consumer` of a first record is a cursor, or none for
`first_key_value`.
-/
inductive Pc (K V : Type) [TotalOrd K] where
  | leafRoot (task : Task K V)
  | leafRead (task : Task K V) (node : PageId)
  | leafWrite (task : WriteTask K V) (node : PageId)
  | seekRight (cursor : Nat) (key : Query K) (inclusive : Bool) (node : PageId)
  | leftmostRoot (consumer : Option Nat)
  | leftmostLeaf (consumer : Option Nat) (node : PageId)
  | firstEntry (consumer : Option Nat) (node : PageId)
  | rightmostRoot
  | rightmostLeaf (node : PageId)
  | lastEntry (node : PageId)
  | loadLen
  | loadIsEmpty
  | splitRootIfFull (key : K) (value : V)
  | insertRoot (key : K) (value : V)
  | insertAttempt (key : K) (value : V) (node : PageId)
  | repairSplitBacklink (key : K) (value : V) (newRight : PageId)
    (oldSuccessor target : Option PageId) (held : List PageId)
  | shrinkRoot (key : Query K) (result : Option (Option V))
  | removeRoot (key : Query K)
  | removeAttempt (key : Query K) (node : PageId)
  | mergeUpgrade (key : Query K) (repair : MergeRepair) (target : PageId)
    (held : List PageId)
  | mergeClear (key : Query K) (repair : MergeRepair) (target : PageId)
    (held : List PageId)
  | mergeWalk (key : Query K) (repair : MergeRepair) (cursor target : PageId)
    (held : List PageId)
  | candidate (cursor : Nat) (found : Option (Entry K V))
  | done (response : Response K V)
  | panicked (panic : Panic)

variable {K : Type} [TotalOrd K] {V : Type}

/-- The key that a lookup routes by. -/
def ReadTask.key : ReadTask K → Query K
  | .get key => key
  | .containsKey key => key
  | .entryAtOrAfter _ key _ => key

/-- The key that a leaf update routes by. -/
def WriteTask.key : WriteTask K V → Query K
  | .getMut key _ => key
  | .tryInsertWithoutSplit key _ => .ofKey key
  | .tryRemoveWithoutRebalance key => key

/-- The key that a descent to a leaf routes by. -/
def Task.key : Task K V → Query K
  | .read task => task.key
  | .write task => task.key

/-- Where the consumer of a first record goes with it. -/
def Pc.first (consumer : Option Nat) (found : Option (Entry K V)) : Pc K V :=
  match consumer with
  | none => .done (.entry found)
  | some cursor => .candidate cursor found

/-- Where an insertion goes on after the link repair of a split. -/
def insertResume (key : K) (value : V) : Option PageId → Pc K V
  | some target => .insertAttempt key value target
  | none => .insertRoot key value

/-- Where a removal goes on when the root stays: to the root, unless it is complete. -/
def removeResume (key : Query K) : Option (Option V) → Pc K V
  | none => .removeRoot key
  | some removed => .done (.previous removed)

namespace Tree

section Memory

omit [TotalOrd K]

/-- A tree containing one empty root leaf. -/
def empty : Tree K V where
  root := 0
  len := 0
  page _ := Node.leafRoot
  pages := 1
  handles := 0

/-- `Tree::new`, with its first check of the page capacity. The second one, that `N + 1` does not
overflow, and the check that arrays of this size have a layout are left out: they only fail for
capacities of which there is no map.
-/
def new (N : Nat) : Except Panic (Tree K V) :=
  if 3 ≤ N then
    .ok empty
  else
    .error (.assertion "BLinkMap page capacity must be at least 3")

/-- Stores the content of one page. -/
def setPage (t : Tree K V) (p : PageId) (node : Node K V) : Tree K V :=
  { t with page := fun q => if q = p then node else t.page q }

/-- `page.right = right`, under the page's write latch. -/
def setRight (t : Tree K V) (p : PageId) (right : Option PageId) : Tree K V :=
  t.setPage p { t.page p with right }

/-- `page.previous = previous`, under the page's write latch. -/
def setPrevious (t : Tree K V) (p : PageId) (previous : Option PageId) : Tree K V :=
  t.setPage p { t.page p with previous }

/-- Allocates the next `count` page addresses. -/
def allocate (t : Tree K V) (count : Nat) : Tree K V := { t with pages := t.pages + count }

/-- Decrements the exact length while the removed record's leaf is latched. -/
def decrementLen (t : Tree K V) : Except Panic (Tree K V) :=
  if 0 < t.len then .ok { t with len := t.len - 1 } else .error .debugAssertion

/-- The retired page's forwarding target, if the page is retired. -/
def forward (t : Tree K V) (p : PageId) : Option PageId :=
  match (t.page p).kind with
  | .redirect target => some target
  | .internal _ _ | .leaf _ => none

@[simp] theorem setPage_page (t : Tree K V) (p q : PageId) (node : Node K V)
    : (t.setPage p node).page q = if q = p then node else t.page q := rfl

@[simp] theorem setPage_root (t : Tree K V) (p : PageId) (node : Node K V)
    : (t.setPage p node).root = t.root := rfl

@[simp] theorem setPage_len (t : Tree K V) (p : PageId) (node : Node K V)
    : (t.setPage p node).len = t.len := rfl

@[simp] theorem setPage_pages (t : Tree K V) (p : PageId) (node : Node K V)
    : (t.setPage p node).pages = t.pages := rfl

@[simp] theorem setPage_handles (t : Tree K V) (p : PageId) (node : Node K V)
    : (t.setPage p node).handles = t.handles := rfl

@[simp] theorem allocate_page (t : Tree K V) (count : Nat)
    : (t.allocate count).page = t.page := rfl

@[simp] theorem allocate_root (t : Tree K V) (count : Nat)
    : (t.allocate count).root = t.root := rfl

@[simp] theorem allocate_len (t : Tree K V) (count : Nat)
    : (t.allocate count).len = t.len := rfl

@[simp] theorem allocate_pages (t : Tree K V) (count : Nat)
    : (t.allocate count).pages = t.pages + count := rfl

end Memory

-----------------------------------------------------------------------------------------
-- Lookups
-----------------------------------------------------------------------------------------

/-- One turn of the loop of `entry_at_or_after`, under the read latch of `node`. -/
def entryAtOrAfter (t : Tree K V) (cursor : Nat) (key : Query K) (inclusive : Bool)
    (node : PageId)
    : Except Panic (Pc K V) :=
  let guard := t.page node
  match guard.kind with
  | .leaf entries =>
      match entries[LeafNode.indexAtOrAfter entries key inclusive]? with
      | some entry => .ok (.candidate cursor (some entry))
      | none =>
          match guard.right with
          | none => .ok (.candidate cursor none)
          | some next => .ok (.seekRight cursor key inclusive next)
  | .redirect target => .ok (.seekRight cursor key inclusive target)
  | .internal _ _ => .error (.unreachable "leaf traversal returned an internal page")

/-- What a lookup reads from the leaf it was looking for. -/
def readLeaf (t : Tree K V) (task : ReadTask K) (node : PageId)
    (entries : List (Entry K V))
    : Except Panic (Pc K V) :=
  match task with
  | .get key =>
      match LeafNode.search entries key with
      | .found index => do
          let entry ← Array.index entries index
          return .done (.entry (some entry))
      | .missing _ => .ok (.done (.entry none))
  | .containsKey key =>
      match LeafNode.search entries key with
      | .found _ => .ok (.done (.flag true))
      | .missing _ => .ok (.done (.flag false))
  | .entryAtOrAfter cursor key inclusive => t.entryAtOrAfter cursor key inclusive node

/-- One turn of the inner loop of `leaf_read_for`, under the read latch of `node`. -/
def leafRead (t : Tree K V) (task : Task K V) (node : PageId) : Except Panic (Pc K V) := do
  let guard := t.page node
  match ← guard.route task.key with
  | .restart => return .leafRoot task
  | .right next => return .leafRead task next
  | .here =>
      match guard.kind with
      | .internal keys children => do
          let index ← InternalNode.childIndex keys task.key
          let child ← Array.index children index
          return .leafRead task child
      | .leaf entries =>
          match task with
          | .read task => t.readLeaf task node entries
          -- `leaf_write_for` drops the read latch before it takes the leaf exclusively.
          | .write task => return .leafWrite task node
      | .redirect _ => throw (.unreachable "route handles redirects")

/-- One turn of the loop of `leftmost_leaf`. -/
def leftmostLeaf (t : Tree K V) (consumer : Option Nat) (node : PageId)
    : Except Panic (Pc K V) :=
  match (t.page node).kind with
  | .internal _ children => do
      let child ← Array.index children 0
      return .leftmostLeaf consumer child
  | .leaf _ => .ok (.firstEntry consumer node)
  | .redirect target => .ok (.leftmostLeaf consumer target)

/-- One turn of the loop of `first_entry`. -/
def firstEntry (t : Tree K V) (consumer : Option Nat) (node : PageId)
    : Except Panic (Pc K V) :=
  let guard := t.page node
  match guard.kind with
  | .leaf (entry :: _) => .ok (.first consumer (some entry))
  | .leaf [] =>
      match guard.right with
      | some next => .ok (.firstEntry consumer next)
      | none => .ok (.first consumer none)
  | .redirect target => .ok (.firstEntry consumer target)
  | .internal _ _ =>
      .error (.unreachable "leftmost-leaf traversal returned an internal page")

/-- One turn of the loop of `rightmost_leaf`. -/
def rightmostLeaf (t : Tree K V) (node : PageId) : Except Panic (Pc K V) :=
  let guard := t.page node
  match guard.kind with
  | .internal _ children => do
      let child ← expect "an internal page always has a child" children.getLast?
      return .rightmostLeaf child
  | .leaf _ =>
      match guard.right with
      | none => .ok (.lastEntry node)
      | some next => .ok (.rightmostLeaf next)
  | .redirect target => .ok (.rightmostLeaf target)

/-- One turn of the loop of `last_entry`. -/
def lastEntry (t : Tree K V) (node : PageId) : Except Panic (Pc K V) :=
  match (t.page node).kind with
  | .leaf entries => .ok (.done (.entry entries.getLast?))
  | .redirect target => .ok (.lastEntry target)
  | .internal _ _ =>
      .error (.unreachable "rightmost-leaf traversal returned an internal page")

-----------------------------------------------------------------------------------------
-- Updates of one leaf
-----------------------------------------------------------------------------------------

/-- Inserts or replaces one record in the write-latched leaf `node` and publishes the count
while the leaf is still latched.
-/
def insertRecord (N : Nat) (t : Tree K V) (node : PageId) (entries : List (Entry K V))
    (key : K) (value : V)
    : Except Panic (Tree K V × Option V) := do
  let (entries, replaced, inserted) ← LeafNode.insert N entries key value t.handles
  let t := t.setPage node { t.page node with kind := .leaf entries }
  if inserted then
    return ({ t with len := t.len + 1, handles := t.handles + 1 }, replaced)
  else
    return (t, replaced)

/-- Removes the record at `index` from the write-latched leaf `node`. -/
def removeRecord (t : Tree K V) (node : PageId) (entries : List (Entry K V)) (index : Nat)
    : Except Panic (Tree K V × V) := do
  let (entry, entries) ← Array.remove entries index
  let t := t.setPage node { t.page node with kind := .leaf entries }
  let t ← t.decrementLen
  return (t, entry.value)

/-- What an update does to the leaf it was looking for, under the leaf's write latch. -/
def writeLeaf (N : Nat) (t : Tree K V) (task : WriteTask K V) (node : PageId)
    (entries : List (Entry K V))
    : Except Panic (Tree K V × Pc K V) :=
  let guard := t.page node
  match task with
  | .getMut key write =>
      match LeafNode.search entries key with
      | .found index => do
          let entry ← Array.index entries index
          let entries ← Array.assign entries index { entry with value := write entry.value }
          return (t.setPage node { guard with kind := .leaf entries }, .done (.entry entry))
      | .missing _ => .ok (t, .done (.entry none))
  | .tryInsertWithoutSplit key value =>
      match LeafNode.search entries (.ofKey key) with
      | .missing _ =>
          if entries.length = N then
            .ok (t, .splitRootIfFull key value)
          else do
            let (t, replaced) ← t.insertRecord N node entries key value
            return (t, .done (.previous replaced))
      | .found _ => do
          let (t, replaced) ← t.insertRecord N node entries key value
          return (t, .done (.previous replaced))
  | .tryRemoveWithoutRebalance key =>
      match LeafNode.search entries key with
      | .missing _ => .ok (t, .done (.previous none))
      | .found index =>
          if guard.isRoot = false ∧ entries.length ≤ N / 2 then
            .ok (t, .shrinkRoot key none)
          else do
            let (t, removed) ← t.removeRecord node entries index
            return (t, .done (.previous removed))

/-- The exclusive turn of `leaf_write_for`: it revalidates the leaf, or starts again. -/
def leafWrite (N : Nat) (t : Tree K V) (task : WriteTask K V) (node : PageId)
    : Except Panic (Tree K V × Pc K V) := do
  let guard := t.page node
  match ← guard.route task.key, guard.kind with
  | .here, .leaf entries => t.writeLeaf N task node entries
  | _, _ => return (t, .leafRoot (.write task))

/-- One turn of the loop of `split_root_if_full`. The new root takes the first of the two
new addresses, its right child the second.
-/
def splitRootIfFull (N : Nat) (t : Tree K V) (key : K) (value : V)
    : Except Panic (Tree K V × Pc K V) :=
  let rootRef := t.root
  let root := t.page rootRef
  match root.kind with
  | .redirect target => .ok ({ t with root := target }, .splitRootIfFull key value)
  | .internal _ _ | .leaf _ =>
      if root.occupancy < N then
        .ok (t, .insertRoot key value)
      else do
        let newRoot := t.pages
        let right := t.pages + 1
        let (leftPage, rightPage, split) ← root.splitFull N rootRef right
        let rootPage ← Node.rootFromSplit N rootRef split.separator split.right
        let t := t.allocate 2
        let t := t.setPage rootRef { leftPage with isRoot := false }
        let t := t.setPage right rightPage
        let t := t.setPage newRoot rootPage
        return (
          { t with root := newRoot },
          .repairSplitBacklink key value right split.oldSuccessor none [rootRef]
        )

/-- One turn of the loop of `insert_attempt`, under the write latch of `node`. -/
def insertAttempt (N : Nat) (t : Tree K V) (key : K) (value : V) (node : PageId)
    (latched : Bool)
    : Except Panic (Tree K V × Pc K V) := do
  let retry := Pc.splitRootIfFull key value
  let guard := t.page node
  match ← guard.route (.ofKey key) with
  | .restart => return (t, retry)
  | .right next => return (t, .insertAttempt key value next)
  | .here =>
      if guard.occupancy = N then
        return (t, retry)
      else
        match guard.kind with
        | .leaf entries => do
            let (t, replaced) ← t.insertRecord N node entries key value
            return (t, .done (.previous replaced))
        | .internal keys children => do
            let childIndex ← InternalNode.childIndex keys (.ofKey key)
            let childRef ← Array.index children childIndex
            if latched = false then
              return (t, retry)
            else
              let child := t.page childRef
              if child.isRedirect then
                return (t, retry)
              else if child.occupancy = N then do
                let right := t.pages
                let (leftPage, rightPage, split) ← child.splitFull N childRef right
                let goesRight := compare key split.separator.key ≠ .lt
                let target := if goesRight then split.right else childRef
                let (keys, children) ←
                  InternalNode.insertSplit N keys children childIndex split.separator split.right
                let t := t.allocate 1
                let t := t.setPage childRef leftPage
                let t := t.setPage right rightPage
                let t := t.setPage node { guard with kind := .internal keys children }
                return (
                  t,
                  .repairSplitBacklink key value right split.oldSuccessor target [node, childRef]
                )
              else
                return (t, .insertAttempt key value childRef)
        | .redirect _ => throw (.unreachable "route handles redirects")

/-- `repair_split_backlink`, which holds `newRight` latched while it follows the forwarding
pointers of the old successor.
-/
def repairSplitBacklink (t : Tree K V) (key : K) (value : V) (newRight : PageId)
    (oldSuccessor target : Option PageId)
    : Except Panic (Tree K V × Pc K V) :=
  let resume := insertResume key value target
  match oldSuccessor with
  | none => .ok (t, resume)
  | some successor =>
      if (t.page newRight).isRedirect then
        .ok (t, resume)
      else if (t.page newRight).right ≠ some successor then
        .ok (t, resume)
      else
        match follow t.forward t.pages successor with
        | none => .error .diverged
        | some successor =>
            let t := t.setRight newRight (some successor)
            .ok (t.setPrevious successor (some newRight), resume)

-----------------------------------------------------------------------------------------
-- Removal with borrowing and merging
-----------------------------------------------------------------------------------------

/-- One turn of the loop of `shrink_root`, before an attempt or after it has its `result`. -/
def shrinkRoot (t : Tree K V) (key : Query K) (result : Option (Option V))
    : Except Panic (Tree K V × Pc K V) :=
  let rootRef := t.root
  let root := t.page rootRef
  let collapse (child : PageId) : Tree K V × Pc K V :=
    let t :=
      t.setPage child {
        t.page child with
        isRoot := true
        lowKey := none
        highKey := none
        previous := none
        right := none
      }
    let t :=
      t.setPage rootRef {
        isRoot := false
        lowKey := none
        highKey := none
        previous := none
        right := none
        kind := .redirect child
      }
    ({ t with root := child }, .shrinkRoot key result)
  let stop := removeResume key result
  match root.kind with
  | .internal keys children =>
      if keys.isEmpty then do
        debugAssert (children.length = 1)
        let child ← Array.index children 0
        return collapse child
      else
        .ok (t, stop)
  | .redirect target => .ok (collapse target)
  | .leaf _ => .ok (t, stop)

/-- One turn of the loop of `remove_attempt`, under the write latch of `node`. -/
def removeAttempt (N : Nat) (t : Tree K V) (key : Query K) (node : PageId) (latched : Bool)
    : Except Panic (Tree K V × Pc K V) := do
  let retry := Pc.shrinkRoot key none
  let guard := t.page node
  match ← guard.route key with
  | .restart => return (t, retry)
  | .right next => return (t, .removeAttempt key next)
  | .here =>
      if guard.isRoot = false ∧ guard.occupancy ≤ guard.minimum N then
        return (t, retry)
      else
        match guard.kind with
        | .leaf entries =>
            match LeafNode.search entries key with
            | .missing _ => return (t, .shrinkRoot key (some none))
            | .found index => do
                let (t, removed) ← t.removeRecord node entries index
                return (t, .shrinkRoot key (some (some removed)))
        | .internal keys children => do
            let childIndex ← InternalNode.childIndex keys key
            if 0 < childIndex then do
              let leftRef ← Array.index children (childIndex - 1)
              let childRef ← Array.index children childIndex
              if latched = false then
                return (t, retry)
              else
                let left := t.page leftRef
                let child := t.page childRef
                if left.isRedirect ∨ child.isRedirect then
                  return (t, retry)
                else if child.occupancy ≤ child.minimum N then
                  if left.minimum N < left.occupancy then do
                    let (keys, left, child) ←
                      borrowFromLeft N keys (childIndex - 1) left child
                    let t := t.setPage leftRef left
                    let t := t.setPage childRef child
                    let t := t.setPage node { guard with kind := .internal keys children }
                    return (t, .removeAttempt key childRef)
                  else do
                    let (keys, children, left, child, repair) ←
                      mergeLeftIntoRight N keys children (childIndex - 1) leftRef left childRef
                        child
                    let t := t.setPage leftRef left
                    let t := t.setPage childRef child
                    let t := t.setPage node { guard with kind := .internal keys children }
                    return (t, .mergeUpgrade key repair childRef [node, leftRef, childRef])
                else
                  return (t, .removeAttempt key childRef)
            else if children.length < 2 then
              return (t, retry)
            else do
              let childRef ← Array.index children 0
              let rightRef ← Array.index children 1
              if latched = false then
                return (t, retry)
              else
                let child := t.page childRef
                let right := t.page rightRef
                if child.isRedirect ∨ right.isRedirect then
                  return (t, retry)
                else if child.occupancy ≤ child.minimum N then
                  if right.minimum N < right.occupancy then do
                    let (keys, child, right) ← borrowFromRight N keys 0 child right
                    let t := t.setPage childRef child
                    let t := t.setPage rightRef right
                    let t := t.setPage node { guard with kind := .internal keys children }
                    return (t, .removeAttempt key childRef)
                  else do
                    let (keys, children, child, right, repair) ←
                      mergeLeftIntoRight N keys children 0 childRef child rightRef right
                    let t := t.setPage childRef child
                    let t := t.setPage rightRef right
                    let t := t.setPage node { guard with kind := .internal keys children }
                    return (t, .mergeUpgrade key repair rightRef [node, childRef, rightRef])
                else
                  return (t, .removeAttempt key childRef)
        | .redirect _ => throw (.unreachable "route handles redirects")

-----------------------------------------------------------------------------------------
-- Repair of the sibling chain after a merge
-----------------------------------------------------------------------------------------

/-- `repair_merged_link` begins by upgrading the captured predecessor. -/
def mergeUpgrade (t : Tree K V) (key : Query K) (repair : MergeRepair) (target : PageId)
    (held : List PageId) (upgraded : Bool)
    : Tree K V × Pc K V :=
  match repair.predecessor with
  | some predecessor =>
      if upgraded then
        (t, .mergeWalk key repair predecessor target held)
      else
        (t, .mergeClear key repair target held)
  | none => (t, .mergeClear key repair target held)

/-- The exit of `repair_merged_link` that leaves the survivor without a predecessor. -/
def mergeClear (t : Tree K V) (key : Query K) (repair : MergeRepair) (target : PageId)
    : Tree K V × Pc K V :=
  (t.setPrevious repair.survivor none, .removeAttempt key target)

/-- What the loop of `repair_merged_link` does about the link from the active page `cursor`,
which is write-latched, to `next`.
-/
def mergeLink (t : Tree K V) (key : Query K) (repair : MergeRepair)
    (cursor next target : PageId) (held : List PageId)
    : Tree K V × Pc K V :=
  let resume (cursor : PageId) : Pc K V := .mergeWalk key repair cursor target held
  -- The survivor gets `cursor` as its predecessor, and the repair is complete.
  let complete (t : Tree K V) : Tree K V × Pc K V :=
    (t.setPrevious repair.survivor (some cursor), .removeAttempt key target)
  if next = repair.retired then
    match t.forward repair.survivor with
    | some forward => (t.setRight cursor (some forward), resume forward)
    | none => complete (t.setRight cursor (some repair.survivor))
  else if next = repair.survivor then
    match t.forward repair.survivor with
    | some forward => (t.setRight cursor (some forward), resume cursor)
    | none => complete t
  else
    match t.forward next with
    | some forward =>
        if forward = repair.survivor ∧ t.forward repair.survivor = none then
          complete (t.setRight cursor (some forward))
        else
          (t.setRight cursor (some forward), resume cursor)
    | none => (t, resume next)

/-- One turn of the loop of `repair_merged_link`, under the write latch of `cursor`. -/
def mergeWalk (t : Tree K V) (key : Query K) (repair : MergeRepair)
    (cursor target : PageId) (held : List PageId) (upgraded : Bool)
    : Tree K V × Pc K V :=
  let guard := t.page cursor
  match guard.kind with
  | .redirect forward =>
      let earlier := if upgraded then guard.previous else none
      (t, .mergeWalk key repair (earlier.getD forward) target held)
  | .internal _ _ | .leaf _ =>
      match guard.right with
      | none => (t, .mergeClear key repair target (cursor :: held))
      | some next => t.mergeLink key repair cursor next target held

/-- The section that an operation enters at `pc`. `latched` tells whether its `try_write`
attempts succeed, `upgraded` whether the weak pointer it upgrades still has its page.
-/
def latchedSection (N : Nat) (t : Tree K V) (latched upgraded : Bool)
    : Pc K V → Except Panic (Tree K V × Pc K V)
  | .leafRoot task => .ok (t, .leafRead task t.root)
  | .leafRead task node => return (t, ← t.leafRead task node)
  | .leafWrite task node => t.leafWrite N task node
  | .seekRight cursor key inclusive node =>
      return (t, ← t.entryAtOrAfter cursor key inclusive node)
  | .leftmostRoot consumer => .ok (t, .leftmostLeaf consumer t.root)
  | .leftmostLeaf consumer node => return (t, ← t.leftmostLeaf consumer node)
  | .firstEntry consumer node => return (t, ← t.firstEntry consumer node)
  | .rightmostRoot => .ok (t, .rightmostLeaf t.root)
  | .rightmostLeaf node => return (t, ← t.rightmostLeaf node)
  | .lastEntry node => return (t, ← t.lastEntry node)
  | .loadLen => .ok (t, .done (.count t.len))
  | .loadIsEmpty => .ok (t, .done (.flag (t.len = 0)))
  | .splitRootIfFull key value => t.splitRootIfFull N key value
  | .insertRoot key value => .ok (t, .insertAttempt key value t.root)
  | .insertAttempt key value node => t.insertAttempt N key value node latched
  | .repairSplitBacklink key value newRight oldSuccessor target _ =>
      t.repairSplitBacklink key value newRight oldSuccessor target
  | .shrinkRoot key result => t.shrinkRoot key result
  | .removeRoot key => .ok (t, .removeAttempt key t.root)
  | .removeAttempt key node => t.removeAttempt N key node latched
  | .mergeUpgrade key repair target held =>
      .ok (t.mergeUpgrade key repair target held upgraded)
  | .mergeClear key repair target _ => .ok (t.mergeClear key repair target)
  | .mergeWalk key repair cursor target held =>
      .ok (t.mergeWalk key repair cursor target held upgraded)
  | .candidate cursor found => .ok (t, .candidate cursor found)
  | .done response => .ok (t, .done response)
  | .panicked panic => .error panic

end Tree

end BLink
