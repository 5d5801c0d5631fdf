import BLink.Library.Latches
import BLink.Model.Threads
import Mathlib.Algebra.Group.Nat.Defs

/-! Threads that acquire and release one latch at a time.
A thread acquires the latches of a section one by one, makes the section's changes when it has
them all, publishes the change of the record counter, and releases the latches one by one.
What a section changes it has latched exclusively until then, so nobody sees the changes any
earlier.
-/

namespace BLink

open Library

/-- What a latch protects: the root slot or a page. -/
inductive Latch where
  | slot
  | page (p : PageId)
  deriving DecidableEq, Repr

/-- How a section has changed the number of records, before it updates the counter. -/
inductive Tally where
  | added
  | removed
  deriving DecidableEq, Repr

/-- What a thread does next in a section: wait for a latch; try one without waiting; release
the newest latch and wait for the exclusive one of the page `target` instead; make the
section's changes, `latched` telling whether no try has failed; load the counter; update the
counter; or release the latches.
-/
inductive Phase where
  | await (latch : Latch) (mode : Mode)
  | attempt (p : PageId)
  | hop (target : PageId)
  | act (latched : Bool)
  | load
  | count (tally : Tally)
  | release
  deriving DecidableEq, Repr

/-- The latches that a thread holds, the newest first, and what it does next. -/
structure Worker where
  held : List (Latch × Mode)
  phase : Phase
  deriving DecidableEq, Repr

/-- A thread that holds no latch, between two sections. -/
def Worker.resting : Worker := { held := [], phase := .release }

variable {K : Type} [TotalOrd K] {V : Type}

-----------------------------------------------------------------------------------------
-- The latches of one section
-----------------------------------------------------------------------------------------

/-- A section under a single latch. -/
def Phase.single (latch : Latch) (mode : Mode) : List (Latch × Mode) → Phase
  | [] => .await latch mode
  | _ => .act true

/-- The child that `insert_attempt` tries to latch from the page `guard`. -/
def Node.childToLatch (N : Nat) (key : Query K) (guard : Node K V) : Option PageId :=
  match guard.route key, guard.kind with
  | .ok .here, .internal keys children =>
      if guard.occupancy = N then
        none
      else
        match InternalNode.childIndex keys key with
        | .ok index => children[index]?
        | .error _ => none
  | _, _ => none

/-- The two children that `remove_attempt` tries to latch from the page `guard`, from left to
right.
-/
def Node.siblingsToLatch (N : Nat) (key : Query K) (guard : Node K V)
    : Option (PageId × PageId) :=
  match guard.route key, guard.kind with
  | .ok .here, .internal keys children =>
      if guard.isRoot = false ∧ guard.occupancy ≤ guard.minimum N then
        none
      else
        match InternalNode.childIndex keys key with
        | .ok index =>
            -- The first child is paired with its right sibling, any other with its left one.
            match children[index - 1]?, children[index - 1 + 1]? with
            | some first, some second => some (first, second)
            | _, _ => none
        | .error _ => none
  | _, _ => none

namespace Tree

/-- `split_root_if_full` latches the root slot and the root page. -/
def splitRootPlan (t : Tree K V) : List (Latch × Mode) → Phase
  | [] => .await .slot .exclusive
  | [(.slot, _)] => .await (.page t.root) .exclusive
  | _ => .act true

/-- `shrink_root` also latches the page that a superfluous root leads to. -/
def shrinkRootPlan (t : Tree K V) : List (Latch × Mode) → Phase
  | [] => .await .slot .exclusive
  | [(.slot, _)] => .await (.page t.root) .exclusive
  | [(.page root, _), (.slot, _)] =>
      match (t.page root).kind with
      | .internal [] (child :: _) | .redirect child => .await (.page child) .exclusive
      | _ => .act true
  | _ => .act true

/-- `insert_attempt` waits for its page, and tries to latch the child that it goes down to. -/
def insertAttemptPlan (N : Nat) (t : Tree K V) (key : Query K) (node : PageId)
    : List (Latch × Mode) → Phase
  | [] => .await (.page node) .exclusive
  | [(.page node, _)] =>
      match (t.page node).childToLatch N key with
      | some child => .attempt child
      | none => .act true
  | _ => .act true

/-- `remove_attempt` waits for its page, and tries to latch the child that it goes down to
together with a sibling, the left one of the two first.
-/
def removeAttemptPlan (N : Nat) (t : Tree K V) (key : Query K) (node : PageId)
    : List (Latch × Mode) → Phase
  | [] => .await (.page node) .exclusive
  | [(.page node, _)] =>
      match (t.page node).siblingsToLatch N key with
      | some (first, _) => .attempt first
      | none => .act true
  | [_, (.page node, _)] =>
      match (t.page node).siblingsToLatch N key with
      | some (_, second) => .attempt second
      | none => .act true
  | _ => .act true

/-- `repair_split_backlink` holds `new_right` latched while it waits for the old successor,
and for the pages that the old successor forwards to.
-/
def repairSplitPlan (t : Tree K V) (newRight : PageId) : Option PageId
    → List (Latch × Mode) → Phase
  | none, _ => .act true
  | some _, [] => .await (.page newRight) .exclusive
  | some successor, [(.page newRight, _)] =>
      if (t.page newRight).isRedirect ∨ (t.page newRight).right ≠ some successor then
        .act true
      else
        .await (.page successor) .exclusive
  | some _, [(.page successor, _), _] =>
      match t.forward successor with
      | some target => .hop target
      | none => .act true
  | _, _ => .act true

/-- One turn of the loop of `repair_merged_link`: it holds the cursor latched while it waits
for the survivor or for the next page.
-/
def mergeWalkPlan (t : Tree K V) (repair : MergeRepair) (cursor : PageId)
    : List (Latch × Mode) → Phase
  | [] => .await (.page cursor) .exclusive
  | [(.page cursor, _)] =>
      if (t.page cursor).isRedirect then
        .act true
      else
        match (t.page cursor).right with
        | none => .act true
        | some next =>
            if next = repair.retired ∨ next = repair.survivor then
              .await (.page repair.survivor) .exclusive
            else
              .await (.page next) .shared
  | [(.page next, .shared), _] =>
      if t.forward next = some repair.survivor then .hop repair.survivor else .act true
  | _ => .act true

/-- What an operation at `pc` does next when it holds these latches. It reads only the root
slot and the pages that are latched.
-/
def plan (N : Nat) (t : Tree K V) (pc : Pc K V) (held : List (Latch × Mode)) : Phase :=
  match pc with
  | .leafRoot _ | .leftmostRoot _ | .rightmostRoot | .insertRoot _ _ | .removeRoot _ =>
      .single .slot .shared held
  | .leafRead _ node | .seekRight _ _ _ node | .leftmostLeaf _ node | .firstEntry _ node
  | .rightmostLeaf node | .lastEntry node =>
      .single (.page node) .shared held
  | .leafWrite _ node => .single (.page node) .exclusive held
  | .loadLen | .loadIsEmpty => .load
  | .splitRootIfFull _ _ => t.splitRootPlan held
  | .insertAttempt key _ node => t.insertAttemptPlan N (.ofKey key) node held
  | .repairSplitBacklink _ _ newRight oldSuccessor _ _ =>
      t.repairSplitPlan newRight oldSuccessor held
  | .shrinkRoot _ _ => t.shrinkRootPlan held
  | .removeAttempt key node => t.removeAttemptPlan N key node held
  | .mergeUpgrade _ _ _ _ => .act true
  | .mergeClear _ repair _ _ => .single (.page repair.survivor) .exclusive held
  | .mergeWalk _ repair cursor _ _ => t.mergeWalkPlan repair cursor held
  | .candidate _ _ | .done _ | .panicked _ => .release

end Tree

-----------------------------------------------------------------------------------------
-- The record counter
-----------------------------------------------------------------------------------------

/-- `usize::MAX`. -/
def usizeMax : Nat := 2 ^ 64 - 1

/-- `fetch_add(1)` and `fetch_sub(1)`. No memory holds so many records that adding one could
wrap around.
-/
def Tally.update : Tally → Nat → Nat
  | .added, counter => counter + 1
  | .removed, counter => if counter = 0 then usizeMax else counter - 1

/-- After its changes a section updates the counter, if it has added or removed a record. -/
def Phase.publish (before after : Nat) : Phase :=
  if after = before + 1 then .count .added
  else if after + 1 = before then .count .removed
  else .release

/-- What a loaded counter is the result of. -/
def Pc.loaded (counter : Nat) : Pc K V → Pc K V
  | .loadLen => .done (.count counter)
  | .loadIsEmpty => .done (.flag (counter = 0))
  | pc => pc

/-- The index that a section finds for the record that it ends with, among the records of the
leaf that it has latched.
-/
def Pc.foundIndex (entries : List (Entry K V)) : Pc K V → Option Nat
  | .leafRead (.read (.get key)) _ | .leafWrite (.getMut key _) _ =>
      match LeafNode.search entries key with
      | .found index => some index
      | .missing _ => none
  | .leafRead (.read (.entryAtOrAfter _ key inclusive)) _ | .seekRight _ key inclusive _ =>
      some (LeafNode.indexAtOrAfter entries key inclusive)
  | .firstEntry _ _ => some 0
  | .lastEntry _ => some (entries.length - 1)
  | _ => none

/-- The tree with its threads, the latches that each thread holds, the index at which the latest
section of each thread has found its record, the latches that public guards retain, and the
record counter. `system.tree.len` already includes the changes that the counter does not.
-/
structure Machine (ι K V : Type) [TotalOrd K] where
  system : System ι K V
  worker : ι → Worker
  index : ι → Option Nat
  guards : List (Latch × Mode)
  counter : Nat

/-- What happens in one step. The thread of an `acquire`, a `latch` or a `miss` gets the latch
that it waits for, gets the one that it tries, or does not get it; that of a `retain` leaves
the latch on its record's leaf to a public guard.
-/
inductive Action (ι K V : Type) [TotalOrd K] where
  | invoke (thread : ι) (call : Call K V)
  | respond (thread : ι) (call : Call K V) (response : Response K V)
  | enter (thread : ι)
  | acquire (thread : ι)
  | latch (thread : ι)
  | miss (thread : ι)
  | hop (thread : ι)
  | act (thread : ι) (upgraded : Bool)
  | load (thread : ι)
  | count (thread : ι)
  | release (thread : ι)
  | retain (thread : ι)
  | drop (guard : Latch × Mode)

namespace Machine

variable {ι : Type}

/-- The latches of a thread, or of the public guards. -/
def held (m : Machine ι K V) : Option ι → List (Latch × Mode)
  | some θ => (m.worker θ).held
  | none => m.guards

/-- Some thread, the root slot, or the holder of a latch leads to the page by strong
references.
-/
def Alive (m : Machine ι K V) (page : PageId) : Prop :=
  m.system.Alive page
    ∨ ∃ holder origin mode,
        (.page origin, mode) ∈ m.held holder
        ∧ Relation.ReflTransGen m.system.tree.Owns origin page

variable [DecidableEq ι]

/-- Gives one thread other latches, and something else to do next. -/
def setWorker (m : Machine ι K V) (θ : ι) (worker : Worker) : Machine ι K V :=
  { m with worker := Function.update m.worker θ worker }

/-- Gives one thread's program another state. -/
def setThread (m : Machine ι K V) (θ : ι) (thread : Thread K V) : Machine ι K V :=
  { m with system := m.system.setThread θ thread }

/-- The thread has acquired one more latch. -/
def grant (N : PageCapacity) (m : Machine ι K V) (θ : ι) (pc : Pc K V) (latch : Latch)
    (mode : Mode)
    : Machine ι K V :=
  let held := (latch, mode) :: (m.worker θ).held
  m.setWorker θ { held, phase := m.system.tree.plan N.size pc held }

/-- The thread, which holds no latch, begins the section at `pc`. -/
def enter (N : PageCapacity) (m : Machine ι K V) (θ : ι) (pc : Pc K V) : Machine ι K V :=
  m.setWorker θ { held := [], phase := m.system.tree.plan N.size pc [] }

/-- The index that the section at `pc` finds in the leaf that the thread has latched. -/
def foundIndex (m : Machine ι K V) (θ : ι) (pc : Pc K V) : Option Nat :=
  match (m.worker θ).held with
  | [(.page leaf, _)] =>
      match (m.system.tree.page leaf).kind with
      | .leaf entries => pc.foundIndex entries
      | .internal _ _ | .redirect _ => none
  | _ => none

/-- The thread makes the changes of its section at `pc`. -/
def perform (N : PageCapacity) (m : Machine ι K V) (θ : ι) (call : Call K V)
    (latched upgraded : Bool) (pc : Pc K V)
    : Machine ι K V :=
  let system :=
    m.system.afterSection θ call (m.system.tree.latchedSection N.size latched upgraded pc)
  { m.setWorker θ {
      m.worker θ with
      phase := .publish m.system.tree.len system.tree.len
    } with
    system
    index := Function.update m.index θ (m.foundIndex θ pc)
  }

/-- One step of some thread, or of the owner of a public guard. -/
inductive Step (N : PageCapacity) (m : Machine ι K V)
    : Action ι K V → Machine ι K V → Prop
  | invoke {θ call} (idle : (m.system.thread θ).status = .idle)
    : Step N m (.invoke θ call)
        ((m.setThread θ {
          status := .running call (call.begin (m.system.thread θ).cursors).2
          cursors := (call.begin (m.system.thread θ).cursors).1
        }).enter N θ (call.begin (m.system.thread θ).cursors).2)
  | respond {θ call response}
    (done : (m.system.thread θ).status = .running call (.done response))
    (free : m.worker θ = .resting)
    : Step N m (.respond θ call response)
        (m.setThread θ { m.system.thread θ with status := .idle })
  | enter {θ call pc} (running : (m.system.thread θ).status = .running call pc)
    (unfinished : pc.isFinal = false) (free : m.worker θ = .resting)
    : Step N m (.enter θ) (m.enter N θ pc)
  | acquire {θ call pc latch mode} (running : (m.system.thread θ).status = .running call pc)
    (waits : (m.worker θ).phase = .await latch mode)
    (available : Available m.held latch mode)
    : Step N m (.acquire θ) (m.grant N θ pc latch mode)
  | latch {θ call pc p} (running : (m.system.thread θ).status = .running call pc)
    (tries : (m.worker θ).phase = .attempt p)
    (available : Available m.held (.page p) .exclusive)
    : Step N m (.latch θ) (m.grant N θ pc (.page p) .exclusive)
  | miss {θ p} (tries : (m.worker θ).phase = .attempt p)
    : Step N m (.miss θ) (m.setWorker θ { m.worker θ with phase := .act false })
  | hop {θ target newest rest} (hops : m.worker θ = { held := newest :: rest, phase := .hop target })
    : Step N m (.hop θ)
        (m.setWorker θ { held := rest, phase := .await (.page target) .exclusive })
  | act {θ call pc latched upgraded}
    (running : (m.system.thread θ).status = .running call pc)
    (acts : (m.worker θ).phase = .act latched)
    (weak : ∀ page, pc.upgrades m.system.tree = some page → m.Alive page → upgraded = true)
    : Step N m (.act θ upgraded) (m.perform N θ call latched upgraded pc)
  | load {θ call pc} (running : (m.system.thread θ).status = .running call pc)
    (loads : (m.worker θ).phase = .load)
    : Step N m (.load θ)
        ((m.setThread θ {
          m.system.thread θ with
          status := .running call (pc.loaded m.counter)
        }).setWorker θ .resting)
  | count {θ tally} (counts : (m.worker θ).phase = .count tally)
    : Step N m (.count θ)
        { m.setWorker θ { m.worker θ with phase := .release } with
          counter := tally.update m.counter
        }
  | release {θ newest rest}
    (releases : m.worker θ = { held := newest :: rest, phase := .release })
    : Step N m (.release θ) (m.setWorker θ { held := rest, phase := .release })
  | retain {θ call entry holding}
    (done : (m.system.thread θ).status = .running call (.done (.entry (some entry))))
    (last : m.worker θ = { held := [holding], phase := .release })
    : Step N m (.retain θ)
        { m.setWorker θ .resting with guards := holding :: m.guards }
  | drop {guard} (retained : guard ∈ m.guards)
    : Step N m (.drop guard) { m with guards := m.guards.erase guard }

/-- Before the first call no latch is held, and the counter is zero. -/
structure Initial (m : Machine ι K V) : Prop where
  system : m.system.Initial
  worker : ∀ θ, m.worker θ = .resting
  guards : m.guards = []
  counter : m.counter = 0

/-- The transition system of a map of page capacity `N` used by the threads `ι`, one latch at
a time.
-/
def transitions (ι K V : Type) [TotalOrd K] [DecidableEq ι] (N : PageCapacity)
    : TransitionSystem (Machine ι K V) (Action ι K V) where
  init := Initial
  step := Step N

end Machine

end BLink
