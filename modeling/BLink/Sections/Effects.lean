import BLink.Sections.Routing

/-! What each latched section can do, said once.
The relations below list the effects of every section on the tree and on its operation's
program counter. All invariants of running systems are derived from these lists.
-/

namespace BLink

open Library

variable {K V : Type} [TotalOrd K]

-----------------------------------------------------------------------------------------
-- Results in one leaf
-----------------------------------------------------------------------------------------

/-- The record with the sought key. -/
def lookup (entries : List (Entry K V)) (key : Query K) : Option (Entry K V) :=
  entries.find? (fun entry => key.cmp entry.key.key = .eq)

/-- The first record above the key, or equal to it when `inclusive`. -/
def seek (entries : List (Entry K V)) (key : Query K) (inclusive : Bool)
    : Option (Entry K V) :=
  entries.find?
    (fun entry =>
      key.cmp entry.key.key = .lt ∨ inclusive = true ∧ key.cmp entry.key.key = .eq)

/-- The leaf `p` holds `entries` and owns the key. -/
structure Owns (t : Tree K V) (shape : Shape) (p : PageId) (key : Query K)
    (entries : List (Entry K V))
    : Prop where
  member : p ∈ shape.row 0
  kind : (t.page p).kind = .leaf entries
  covers : Covers (t.low p) (t.high p) key

/-- How inserting into a leaf's records changes them, and the value that it replaces. -/
inductive LeafInserts (entries : List (Entry K V)) (key : K) (value : V)
    : List (Entry K V) → Option V → Prop
  | replace {front back : List (Entry K V)} {old : Entry K V}
    (split : entries = front ++ old :: back) (equal : compare key old.key.key = .eq)
    : LeafInserts entries key value (front ++ { old with value } :: back) (some old.value)
  | add {front back : List (Entry K V)} {handle : Nat} (split : entries = front ++ back)
    (absent : ∀ entry ∈ entries, compare key entry.key.key ≠ .eq)
    : LeafInserts entries key value (front ++ { key := { id := handle, key }, value } :: back)
        none

/-- How removing from a leaf's records changes them, and the value that is removed. -/
inductive LeafRemoves (entries : List (Entry K V)) (key : Query K)
    : List (Entry K V) → V → Prop
  | remove {front back : List (Entry K V)} {old : Entry K V}
    (split : entries = front ++ old :: back) (equal : key.cmp old.key.key = .eq)
    : LeafRemoves entries key (front ++ back) old.value

/-- The page stands at level `l`, and owns the search key there. -/
structure OwnsAt (t : Tree K V) (shape : Shape) (l : Nat) (p : PageId) (key : Query K)
    : Prop where
  member : p ∈ shape.row l
  covers : Covers (t.low p) (t.high p) key

/-- How a pass that looks for a key goes on from a page: to where a retired page forwards to,
to the right sibling, or to the child that owns the key, when the child is ready for it.
-/
inductive Moves (t : Tree K V) (shape : Shape) (ready : PageId → Prop) (key : Query K)
    (p : PageId)
    : PageId → Prop
  | forward {target} (retired : t.forward p = some target) : Moves t shape ready key p target
  | right {l next successor} (member : p ∈ shape.row l) (points : (t.page p).right = some next)
    (inRow : successor ∈ shape.row l) (resolves : Resolves t.forward next successor)
    (beyond : Beyond (t.high p) key)
    : Moves t shape ready key p next
  | child {l child} (owns : OwnsAt t shape (l + 1) p key) (inner : OwnsAt t shape l child key)
    (isReady : ready child)
    : Moves t shape ready key p child

/-- How the search for the last leaf goes on from a page. -/
inductive MovesRight (t : Tree K V) (shape : Shape) (p : PageId) : PageId → Prop
  | forward {target} (retired : t.forward p = some target) : MovesRight t shape p target
  | right {l next successor} (member : p ∈ shape.row l) (points : (t.page p).right = some next)
    (inRow : successor ∈ shape.row l) (resolves : Resolves t.forward next successor)
    : MovesRight t shape p next
  | child {l child} (member : p ∈ shape.row (l + 1)) (inside : child ∈ shape.row l)
    (high : t.high child = t.high p)
    : MovesRight t shape p child

section

variable {N : Nat} {t : Tree K V} {shape : Shape} {p next : PageId}

theorem Moves.allocated {ready : PageId → Prop} {key : Query K}
    (moves : Moves t shape ready key p next) (inv : Inv N t shape)
    : next < t.pages := by
  cases moves with
  | forward retired => exact (inv.forwards _ _ retired).2
  | right _ _ inRow resolves _ => exact inv.allocated_of_resolves resolves inRow
  | child _ inner _ => exact inv.allocated inner.member

theorem MovesRight.allocated (moves : MovesRight t shape p next) (inv : Inv N t shape)
    : next < t.pages := by
  cases moves with
  | forward retired => exact (inv.forwards _ _ retired).2
  | right _ _ inRow resolves => exact inv.allocated_of_resolves resolves inRow
  | child _ inside _ => exact inv.allocated inside

end

-----------------------------------------------------------------------------------------
-- Effects
-----------------------------------------------------------------------------------------

/-- The sections that leave the tree as it is because they only look something up. -/
inductive Reads (t : Tree K V) (shape : Shape) : Pc K V → Pc K V → Prop
  | leafRoot {task} : Reads t shape (.leafRoot task) (.leafRead task t.root)
  | restart {task p l} (member : p ∈ shape.row l) (under : Under (t.low p) task.key)
    : Reads t shape (.leafRead task p) (.leafRoot task)
  | descend {task p next} (moves : Moves t shape (fun _ => True) task.key p next)
    : Reads t shape (.leafRead task p) (.leafRead task next)
  | exclusive {task p} (owns : OwnsAt t shape 0 p task.key)
    : Reads t shape (.leafRead (.write task) p) (.leafWrite task p)
  | get {key p entries} (owns : Owns t shape p key entries)
    : Reads t shape (.leafRead (.read (.get key)) p) (.done (.entry (lookup entries key)))
  | containsKey {key p entries} (owns : Owns t shape p key entries)
    : Reads t shape (.leafRead (.read (.containsKey key)) p)
        (.done (.flag (lookup entries key).isSome))
  | seekFound {cursor key inclusive p entries entry pc} (member : p ∈ shape.row 0)
    (kind : (t.page p).kind = .leaf entries) (found : seek entries key inclusive = some entry)
    (source
      : pc = .leafRead (.read (.entryAtOrAfter cursor key inclusive)) p
          ∧ Covers (t.low p) (t.high p) key
        ∨ pc = .seekRight cursor key inclusive p)
    : Reads t shape pc (.candidate cursor (some entry))
  | seekNext {cursor key inclusive p entries next successor pc} (member : p ∈ shape.row 0)
    (kind : (t.page p).kind = .leaf entries) (nothing : seek entries key inclusive = none)
    (points : (t.page p).right = some next) (inRow : successor ∈ shape.row 0)
    (resolves : Resolves t.forward next successor) (fences : t.high p = t.low successor)
    (source
      : pc = .leafRead (.read (.entryAtOrAfter cursor key inclusive)) p
          ∧ Covers (t.low p) (t.high p) key
        ∨ pc = .seekRight cursor key inclusive p)
    : Reads t shape pc (.seekRight cursor key inclusive next)
  | seekEnd {cursor key inclusive p entries pc} (member : p ∈ shape.row 0)
    (kind : (t.page p).kind = .leaf entries) (nothing : seek entries key inclusive = none)
    (ends : t.high p = none)
    (source
      : pc = .leafRead (.read (.entryAtOrAfter cursor key inclusive)) p
          ∧ Covers (t.low p) (t.high p) key
        ∨ pc = .seekRight cursor key inclusive p)
    : Reads t shape pc (.candidate cursor none)
  | seekForward {cursor key inclusive p target} (retired : t.forward p = some target)
    : Reads t shape (.seekRight cursor key inclusive p) (.seekRight cursor key inclusive target)
  | leftmostRoot {consumer}
    : Reads t shape (.leftmostRoot consumer) (.leftmostLeaf consumer t.root)
  | leftmostDescend {consumer p child l} (member : p ∈ shape.row (l + 1))
    (childMember : child ∈ shape.row l) (low : t.low child = t.low p)
    : Reads t shape (.leftmostLeaf consumer p) (.leftmostLeaf consumer child)
  | leftmostForward {consumer p target} (retired : t.forward p = some target)
    : Reads t shape (.leftmostLeaf consumer p) (.leftmostLeaf consumer target)
  | leftmostFound {consumer p} (member : p ∈ shape.row 0)
    : Reads t shape (.leftmostLeaf consumer p) (.firstEntry consumer p)
  | firstFound {consumer p entries} (member : p ∈ shape.row 0)
    (kind : (t.page p).kind = .leaf entries)
    (stop : entries ≠ [] ∨ (t.page p).right = none)
    : Reads t shape (.firstEntry consumer p) (.first consumer entries.head?)
  | firstNext {consumer p next} (member : p ∈ shape.row 0)
    (kind : (t.page p).kind = .leaf []) (points : (t.page p).right = some next)
    : Reads t shape (.firstEntry consumer p) (.firstEntry consumer next)
  | firstForward {consumer p target} (retired : t.forward p = some target)
    : Reads t shape (.firstEntry consumer p) (.firstEntry consumer target)
  | rightmostRoot : Reads t shape .rightmostRoot (.rightmostLeaf t.root)
  | rightmostDescend {p next} (moves : MovesRight t shape p next)
    : Reads t shape (.rightmostLeaf p) (.rightmostLeaf next)
  | rightmostFound {p} (member : p ∈ shape.row 0) (last : (t.page p).right = none)
    : Reads t shape (.rightmostLeaf p) (.lastEntry p)
  | lastFound {p entries} (member : p ∈ shape.row 0) (kind : (t.page p).kind = .leaf entries)
    : Reads t shape (.lastEntry p) (.done (.entry entries.getLast?))
  | lastForward {p target} (retired : t.forward p = some target)
    : Reads t shape (.lastEntry p) (.lastEntry target)
  | loadLen : Reads t shape .loadLen (.done (.count t.len))
  | loadIsEmpty : Reads t shape .loadIsEmpty (.done (.flag (t.len = 0)))

/-- The sections under the write latch of one leaf that `leaf_write_for` reacquired. -/
inductive Writes (N : Nat) (t : Tree K V) (shape : Shape)
    : Pc K V → Tree K V → Pc K V → Prop
  | retry {task p} (misses : ¬ OwnsAt t shape 0 p task.key)
    : Writes N t shape (.leafWrite task p) t (.leafRoot (.write task))
  | getMutMissing {key write p entries} (owns : Owns t shape p key entries)
    (missing : lookup entries key = none)
    : Writes N t shape (.leafWrite (.getMut key write) p) t (.done (.entry none))
  | getMutFound {key write p front entry back t'}
    (owns : Owns t shape p key (front ++ entry :: back))
    (equal : key.cmp entry.key.key = .eq)
    (updated
      : LeafUpdated N t t' p (front ++ entry :: back)
          (front ++ { entry with value := write entry.value } :: back))
    : Writes N t shape (.leafWrite (.getMut key write) p) t' (.done (.entry (some entry)))
  | insertFull {key value p}
    : Writes N t shape (.leafWrite (.tryInsertWithoutSplit key value) p) t
        (.splitRootIfFull key value)
  | insertDone {key value p entries entries' replaced t'}
    (owns : Owns t shape p (.ofKey key) entries)
    (inserts : LeafInserts entries key value entries' replaced)
    (updated : LeafUpdated N t t' p entries entries')
    : Writes N t shape (.leafWrite (.tryInsertWithoutSplit key value) p) t'
        (.done (.previous replaced))
  | removeMissing {key p entries} (owns : Owns t shape p key entries)
    (missing : lookup entries key = none)
    : Writes N t shape (.leafWrite (.tryRemoveWithoutRebalance key) p) t
        (.done (.previous none))
  | removeStructural {key p}
    : Writes N t shape (.leafWrite (.tryRemoveWithoutRebalance key) p) t (.shrinkRoot key none)
  | removeDone {key p entries entries' removed t'} (owns : Owns t shape p key entries)
    (removes : LeafRemoves entries key entries' removed)
    (updated : LeafUpdated N t t' p entries entries')
    : Writes N t shape (.leafWrite (.tryRemoveWithoutRebalance key) p) t'
        (.done (.previous (some removed)))

/-- The sections of the structural insertion. -/
inductive Inserts (N : Nat) (t : Tree K V) (shape : Shape) (latched : Bool)
    : Pc K V → Tree K V → Pc K V → Prop
  | rootStays {key value} (room : (t.page t.root).kind.size < N)
    : Inserts N t shape latched (.splitRootIfFull key value) t (.insertRoot key value)
  | rootSplits {key value middle t' separator leftKind rightKind}
    (grow : GrowRoot N t middle)
    (split
      : SplitChild N middle t' t.pages t.root (t.pages + 1) separator leftKind rightKind [] []
          [] [])
    : Inserts N t shape latched (.splitRootIfFull key value) t'
        (.repairSplitBacklink key value (t.pages + 1) none none [t.root])
  | root {key value}
    : Inserts N t shape latched (.insertRoot key value) t (.insertAttempt key value t.root)
  | retry {key value p}
    (blocked
      : latched = true → ∀ l, OwnsAt t shape l p (.ofKey key) → (t.page p).kind.size = N)
    : Inserts N t shape latched (.insertAttempt key value p) t (.splitRootIfFull key value)
  | move {key value p next}
    (moves : Moves t shape (fun child => (t.page child).kind.size < N) (.ofKey key) p next)
    : Inserts N t shape latched (.insertAttempt key value p) t (.insertAttempt key value next)
  | done {key value p entries entries' replaced t'}
    (owns : Owns t shape p (.ofKey key) entries)
    (inserts : LeafInserts entries key value entries' replaced)
    (updated : LeafUpdated N t t' p entries entries')
    : Inserts N t shape latched (.insertAttempt key value p) t' (.done (.previous replaced))
  | split {key value p c target l t' separator leftKind rightKind front back before after}
    (member : p ∈ shape.row (l + 1))
    (split
      : SplitChild N t t' p c t.pages separator leftKind rightKind front back before after)
    (goes : target = c ∨ target = t.pages)
    (covers : Covers (t'.low target) (t'.high target) (.ofKey key))
    : Inserts N t shape latched (.insertAttempt key value p) t'
        (.repairSplitBacklink key value t.pages (t.page c).right (some target) [p, c])
  | repairSkipped {key value newRight oldSuccessor target held}
    (stale
      : ∀ successor ∈ oldSuccessor,
          t.forward newRight = none → (t.page newRight).right ≠ some successor)
    : Inserts N t shape latched
        (.repairSplitBacklink key value newRight oldSuccessor target held) t
        (insertResume key value target)
  | repaired {key value newRight successor final target held l}
    (member : newRight ∈ shape.row l) (points : (t.page newRight).right = some successor)
    (inRow : final ∈ shape.row l) (resolves : Resolves t.forward successor final)
    : Inserts N t shape latched
        (.repairSplitBacklink key value newRight (some successor) target held)
        (t.link newRight final) (insertResume key value target)

/-- The section at `p` takes the branch that borrows from the right: the key belongs to the
first child, which is at its minimum, and its right sibling is not.
-/
structure BorrowsFromRight (N : Nat) (t : Tree K V) (key : Query K) (p child right : PageId)
    : Prop where
  routed : (t.page p).route key = .ok .here
  safe : ¬ ((t.page p).isRoot = false ∧ (t.page p).occupancy ≤ (t.page p).minimum N)
  slots
    : ∃ keys rest,
        (t.page p).kind = .internal keys (child :: right :: rest)
        ∧ InternalNode.childIndex keys key = .ok 0
  low : (t.page child).occupancy ≤ (t.page child).minimum N
  lends : (t.page right).minimum N < (t.page right).occupancy

/-- The page is above its minimum, so that it can lose one record or separator. -/
def Tree.Spares (N : Nat) (t : Tree K V) (p : PageId) : Prop :=
  (t.page p).kind.least N < (t.page p).kind.size

/-- The sections of the structural removal, up to the repair of links after a merge. -/
inductive Removes (N : Nat) (t : Tree K V) (shape : Shape) (latched : Bool)
    : Pc K V → Tree K V → Pc K V → Prop
  | rootStays {key result}
    (separated : ∀ children, (t.page t.root).kind ≠ .internal [] children)
    : Removes N t shape latched (.shrinkRoot key result) t (removeResume key result)
  | rootCollapses {key result child t'} (collapse : CollapseRoot t t' child)
    : Removes N t shape latched (.shrinkRoot key result) t' (.shrinkRoot key result)
  | root {key} : Removes N t shape latched (.removeRoot key) t (.removeAttempt key t.root)
  | retry {key p}
    (blocked
      : latched = true → ∀ l, OwnsAt t shape l p key
        → p ≠ t.root ∧ ¬ t.Spares N p ∨ ∃ children, (t.page p).kind = .internal [] children)
    : Removes N t shape latched (.removeAttempt key p) t (.shrinkRoot key none)
  | move {key p next} (moves : Moves t shape (t.Spares N) key p next)
    : Removes N t shape latched (.removeAttempt key p) t (.removeAttempt key next)
  | missing {key p entries} (owns : Owns t shape p key entries)
    (missing : lookup entries key = none)
    : Removes N t shape latched (.removeAttempt key p) t (.shrinkRoot key (some none))
  | done {key p entries entries' removed t'} (owns : Owns t shape p key entries)
    (removes : LeafRemoves entries key entries' removed)
    (updated : LeafUpdated N t t' p entries entries')
    : Removes N t shape latched (.removeAttempt key p) t' (.shrinkRoot key (some (some removed)))
  | borrowLeft {key p l first second separator boundary whole leftKind rightKind front back
    before after t'}
    (member : p ∈ shape.row (l + 1))
    (shift
      : ShiftBoundary N t t' p first second separator boundary whole leftKind rightKind front
          back before after)
    (grows : rightKind.size = (t.page second).kind.size + 1)
    (covers : Covers (t'.low second) (t'.high second) key)
    : Removes N t shape latched (.removeAttempt key p) t' (.removeAttempt key second)
  | borrowRight {key p l first second separator boundary whole leftKind rightKind front back
    before after t'}
    (member : p ∈ shape.row (l + 1))
    (shift
      : ShiftBoundary N t t' p first second separator boundary whole leftKind rightKind front
          back before after)
    (grows : leftKind.size = (t.page first).kind.size + 1)
    (branch : BorrowsFromRight N t key p first second)
    (covers : Covers (t'.low first) (t'.high first) key)
    : Removes N t shape latched (.removeAttempt key p) t' (.removeAttempt key first)
  | merge {key p l first second separator whole front back before after t'}
    (member : p ∈ shape.row (l + 1))
    (merge : MergeSiblings N t t' p first second separator whole front back before after)
    (covers : Covers (t'.low second) (t'.high second) key)
    : Removes N t shape latched (.removeAttempt key p) t'
        (.mergeUpgrade key
          { predecessor := (t.page first).previous, retired := first, survivor := second }
          second [p, first, second])

/-- What the link from `cursor` to the retired page `next` is replaced by, and the page at
which the walk goes on.
-/
inductive Skips (t : Tree K V) (cursor next : PageId) : PageId → PageId → Prop
  | one {shorter} (retired : t.forward next = some shorter) : Skips t cursor next shorter cursor
  | two {middle shorter} (retired : t.forward next = some middle)
    (also : t.forward middle = some shorter)
    : Skips t cursor next shorter shorter

section

variable {t : Tree K V} {cursor next shorter resume : PageId}

omit [TotalOrd K] in
/-- The new link leads where the old one did. -/
theorem Skips.resolves (skips : Skips t cursor next shorter resume) {s : PageId}
    (resolves : Resolves t.forward next s)
    : Resolves t.forward shorter s := by
  cases skips with
  | one retired => exact resolves.of_forward retired
  | two retired also => exact (resolves.of_forward retired).of_forward also

omit [TotalOrd K] in
theorem Skips.retired (skips : Skips t cursor next shorter resume)
    : ∃ target, t.forward next = some target := by
  cases skips with
  | one retired | two retired _ => exact ⟨_, retired⟩

end

/-- The sections of the link repair after a merge. -/
inductive Repairs (t : Tree K V) (shape : Shape)
    : Bool → Pc K V → Tree K V → Pc K V → Prop
  | upgraded {key repair target held predecessor}
    (captured : repair.predecessor = some predecessor)
    : Repairs t shape true (.mergeUpgrade key repair target held) t
        (.mergeWalk key repair predecessor target held)
  | lost {key repair target held upgraded}
    (gone : ∀ predecessor ∈ repair.predecessor, upgraded = false)
    : Repairs t shape upgraded (.mergeUpgrade key repair target held) t
        (.mergeClear key repair target held)
  | cleared {key repair target held upgraded}
    : Repairs t shape upgraded (.mergeClear key repair target held)
        (t.setPrevious repair.survivor none) (.removeAttempt key target)
  | back {key repair cursor target held upgraded forward next}
    (retired : t.forward cursor = some forward)
    (goes
      : next = forward ∧ (upgraded = true → (t.page cursor).previous = none)
        ∨ upgraded = true ∧ (t.page cursor).previous = some next)
    : Repairs t shape upgraded (.mergeWalk key repair cursor target held) t
        (.mergeWalk key repair next target held)
  | ends {key repair cursor target held upgraded l} (member : cursor ∈ shape.row l)
    (last : (t.page cursor).right = none)
    : Repairs t shape upgraded (.mergeWalk key repair cursor target held) t
        (.mergeClear key repair target (cursor :: held))
  | onward {key repair cursor target held upgraded next l} (member : cursor ∈ shape.row l)
    (points : (t.page cursor).right = some next) (active : t.forward next = none)
    (other : next ≠ repair.survivor)
    : Repairs t shape upgraded (.mergeWalk key repair cursor target held) t
        (.mergeWalk key repair next target held)
  | compacted {key repair cursor target held upgraded next shorter resume l}
    (member : cursor ∈ shape.row l) (points : (t.page cursor).right = some next)
    (skips : Skips t cursor next shorter resume)
    (unfinished : t.forward next = some repair.survivor → t.forward repair.survivor ≠ none)
    : Repairs t shape upgraded (.mergeWalk key repair cursor target held)
        (t.setRight cursor (some shorter)) (.mergeWalk key repair resume target held)
  | completed {key repair cursor target held upgraded next l} (member : cursor ∈ shape.row l)
    (points : (t.page cursor).right = some next)
    (resolves : Resolves t.forward next repair.survivor)
    : Repairs t shape upgraded (.mergeWalk key repair cursor target held)
        (t.link cursor repair.survivor) (.removeAttempt key target)

/-- What a section does, whichever one it is. -/
inductive Effect (N : Nat) (t : Tree K V) (shape : Shape) (latched upgraded : Bool)
    (pc : Pc K V) (t' : Tree K V) (pc' : Pc K V)
    : Prop
  | read (same : t' = t) (reads : Reads t shape pc pc')
  | write (writes : Writes N t shape pc t' pc')
  | insert (inserts : Inserts N t shape latched pc t' pc')
  | remove (removes : Removes N t shape latched pc t' pc')
  | repair (repairs : Repairs t shape upgraded pc t' pc')

-----------------------------------------------------------------------------------------
-- What a running operation's references are good for
-----------------------------------------------------------------------------------------

/-- The page is a leaf, or forwards to one. -/
def LeafPlace (t : Tree K V) (shape : Shape) (p : PageId) : Prop :=
  ∃ s ∈ shape.row 0, Resolves t.forward p s

/-- The page is the leftmost one of its level, or forwards to such a page. -/
def LeftmostPlace (t : Tree K V) (shape : Shape) (p : PageId) : Prop :=
  ∃ l, ∃ s ∈ shape.row l, t.low s = none ∧ Resolves t.forward p s

/-- The page is the leftmost leaf, or forwards to it. -/
def FirstPlace (t : Tree K V) (shape : Shape) (p : PageId) : Prop :=
  ∃ s ∈ shape.row 0, t.low s = none ∧ Resolves t.forward p s

/-- The retired page of a repair forwards to the survivor, and its pages are allocated. -/
structure RepairOk (t : Tree K V) (repair : MergeRepair) (target : PageId) : Prop where
  retired : t.forward repair.retired = some repair.survivor
  predecessor : ∀ p ∈ repair.predecessor, p < t.pages
  target : target < t.pages

/-- What a running operation may rely on for the pages that its local variables name. -/
def PcOk (t : Tree K V) (shape : Shape) : Pc K V → Prop
  | .leafRead _ p | .leafWrite _ p | .rightmostLeaf p => p < t.pages
  | .insertAttempt _ _ p | .removeAttempt _ p => p < t.pages
  | .seekRight _ _ _ p | .lastEntry p => LeafPlace t shape p
  | .leftmostLeaf _ p => LeftmostPlace t shape p
  | .firstEntry _ p => FirstPlace t shape p
  | .repairSplitBacklink _ _ newRight _ target _ =>
      newRight < t.pages ∧ ∀ p ∈ target, p < t.pages
  | .mergeUpgrade _ repair target _ | .mergeClear _ repair target _ => RepairOk t repair target
  | .mergeWalk _ repair cursor target _ => RepairOk t repair target ∧ cursor < t.pages
  | .panicked _ => False
  | _ => True

end BLink
