import BLink.Library.TransitionSystem
import BLink.Model.Tree
import Mathlib.Logic.Function.Basic
import Mathlib.Logic.Relation

/-! Threads that run map operations on one tree, one latched section at a time.
Latches give mutual exclusion, so an interleaving of threads is a sequence of sections; any
thread may take the next one.
-/

namespace BLink

open Library

/-- A page capacity of at least three, as `Tree::new` demands. It has no upper bound, so that what
holds of all capacities also speaks of those for which a page would not fit into memory.
-/
structure PageCapacity where
  size : Nat
  three_le : 3 ≤ size

/-- A call of a map or iterator operation. Cursors are numbered per thread, and `next` is
the call of `Iter::next` or of `Range::next`.
-/
inductive Call (K V : Type) [TotalOrd K] where
  | get (key : Query K)
  | containsKey (key : Query K)
  | getMut (key : Query K) (write : V → V)
  | insert (key : K) (value : V)
  | remove (key : Query K)
  | firstKeyValue
  | lastKeyValue
  | len
  | isEmpty
  | next (cursor : Nat)

/-- Whether a thread runs a call, and where in it it is. -/
inductive Status (K V : Type) [TotalOrd K] where
  | idle
  | running (call : Call K V) (pc : Pc K V)

/-- A thread with the cursors it drives. -/
structure Thread (K V : Type) [TotalOrd K] where
  status : Status K V
  cursors : Nat → Cursor K

/-- The tree with all threads that use it. -/
structure System (ι K V : Type) [TotalOrd K] where
  tree : Tree K V
  thread : ι → Thread K V

/-- What happens in one step: a call begins, a thread passes one latched section, or a call
returns.
-/
inductive Label (ι K V : Type) [TotalOrd K] where
  | invoke (thread : ι) (call : Call K V)
  | pass (thread : ι) (latched upgraded : Bool)
  | respond (thread : ι) (call : Call K V) (response : Response K V)

variable {ι K : Type} [TotalOrd K] {V : Type}

/-- A cursor before its first `next`: an iterator, or a range between bounds that
`validate_bounds` has accepted.
-/
inductive Cursor.Created : Cursor K → Prop
  | iter : Created .newIter
  | range (start stop : Bound (Query K)) : Created (.range start stop none false false)

/-- The last section has been passed: the call has its response, or has panicked. -/
def Pc.isFinal : Pc K V → Bool
  | .done _ | .panicked _ => true
  | _ => false

/-- The strong page references among an operation's local variables. -/
def Pc.refs : Pc K V → List PageId
  | .leafRead _ node => [node]
  | .leafWrite _ node => [node]
  | .seekRight _ _ _ node => [node]
  | .leftmostLeaf _ node => [node]
  | .firstEntry _ node => [node]
  | .rightmostLeaf node => [node]
  | .lastEntry node => [node]
  | .insertAttempt _ _ node => [node]
  | .repairSplitBacklink _ _ newRight oldSuccessor target held =>
      newRight :: (oldSuccessor.toList ++ target.toList ++ held)
  | .removeAttempt _ node => [node]
  | .mergeUpgrade _ repair target held => repair.retired :: repair.survivor :: target :: held
  | .mergeClear _ repair target held => repair.retired :: repair.survivor :: target :: held
  | .mergeWalk _ repair cursor target held =>
      repair.retired :: repair.survivor :: cursor :: target :: held
  | _ => []

/-- The weak page pointer that a section upgrades, if it upgrades one. -/
def Pc.upgrades (t : Tree K V) : Pc K V → Option PageId
  | .mergeUpgrade _ repair _ _ => repair.predecessor
  | .mergeWalk _ _ cursor _ _ => if (t.page cursor).isRedirect then (t.page cursor).previous else none
  | _ => none

/-- The page `p` owns a strong reference to `q`: as a child, as its right sibling, or as the
target it forwards to.
-/
def Tree.Owns (t : Tree K V) (p q : PageId) : Prop :=
  (t.page p).right = some q
    ∨ match (t.page p).kind with
      | .internal _ children => q ∈ children
      | .leaf _ => False
      | .redirect target => target = q

/-- How a call begins: with its first section, or without any when a cursor is exhausted. -/
def Call.begin (cursors : Nat → Cursor K) : Call K V → (Nat → Cursor K) × Pc K V
  | .get key => (cursors, .leafRoot (.read (.get key)))
  | .containsKey key => (cursors, .leafRoot (.read (.containsKey key)))
  | .getMut key write => (cursors, .leafRoot (.write (.getMut key write)))
  | .insert key value => (cursors, .leafRoot (.write (.tryInsertWithoutSplit key value)))
  | .remove key => (cursors, .leafRoot (.write (.tryRemoveWithoutRebalance key)))
  | .firstKeyValue => (cursors, .leftmostRoot none)
  | .lastKeyValue => (cursors, .rightmostRoot)
  | .len => (cursors, .loadLen)
  | .isEmpty => (cursors, .loadIsEmpty)
  | .next cursor =>
      match (cursors cursor).begin with
      | .error panic => (cursors, .panicked panic)
      | .ok (begun, seek) =>
          let pc :=
            match seek with
            | .exhausted => .done (.entry none)
            | .firstEntry => .leftmostRoot (some cursor)
            | .entryAtOrAfter key inclusive =>
                .leafRoot (.read (.entryAtOrAfter cursor key inclusive))
          (Function.update cursors cursor begun, pc)

/-- A section that ends with a cursor's candidate record also finishes the cursor's call,
under the guard of the record.
-/
def Thread.resume (thread : Thread K V) (call : Call K V) : Pc K V → Thread K V
  | .candidate cursor found =>
      let (finished, yielded) := (thread.cursors cursor).finish found
      {
        status := .running call (.done (.entry yielded))
        cursors := Function.update thread.cursors cursor finished
      }
  | pc => { thread with status := .running call pc }

namespace System

/-- Some thread, or the root slot, leads to the page by strong references. -/
def Alive (s : System ι K V) (page : PageId) : Prop :=
  ∃ origin,
    (origin = s.tree.root
      ∨ ∃ θ call pc, (s.thread θ).status = .running call pc ∧ origin ∈ pc.refs)
    ∧ Relation.ReflTransGen s.tree.Owns origin page

variable [DecidableEq ι]

/-- Gives one thread a new state. -/
def setThread (s : System ι K V) (θ : ι) (thread : Thread K V) : System ι K V :=
  { s with thread := Function.update s.thread θ thread }

@[simp] theorem setThread_tree (s : System ι K V) (θ : ι) (thread : Thread K V)
    : (s.setThread θ thread).tree = s.tree := rfl

@[simp] theorem setThread_same (s : System ι K V) (θ : ι) (thread : Thread K V)
    : (s.setThread θ thread).thread θ = thread := Function.update_self ..

theorem setThread_other (s : System ι K V) {θ other : ι} (thread : Thread K V)
    (differs : other ≠ θ)
    : (s.setThread θ thread).thread other = s.thread other := Function.update_of_ne differs ..

/-- The system after a section of thread `θ` with the given outcome. -/
def afterSection (s : System ι K V) (θ : ι) (call : Call K V)
    : Except Panic (Tree K V × Pc K V) → System ι K V
  | .ok (tree, pc) => { s.setThread θ ((s.thread θ).resume call pc) with tree }
  | .error panic => s.setThread θ { s.thread θ with status := .running call (.panicked panic) }

/-- One step of some thread. A weak pointer upgrades as long as its page is alive; after that it
may still upgrade while another thread has the page that it has just unlatched.
-/
inductive Step (N : PageCapacity) (s : System ι K V)
    : Label ι K V → System ι K V → Prop
  | invoke {θ call} (idle : (s.thread θ).status = .idle)
    : Step N s (.invoke θ call)
        (s.setThread θ {
          status := .running call (call.begin (s.thread θ).cursors).2
          cursors := (call.begin (s.thread θ).cursors).1
        })
  | pass {θ call pc latched upgraded} (running : (s.thread θ).status = .running call pc)
    (unfinished : pc.isFinal = false)
    (weak : ∀ page, pc.upgrades s.tree = some page → s.Alive page → upgraded = true)
    : Step N s (.pass θ latched upgraded)
        (s.afterSection θ call (s.tree.latchedSection N.size latched upgraded pc))
  | respond {θ call response} (done : (s.thread θ).status = .running call (.done response))
    : Step N s (.respond θ call response)
        (s.setThread θ { s.thread θ with status := .idle })

/-- Before the first call: an empty tree, idle threads, and cursors that have not moved. -/
structure Initial (s : System ι K V) : Prop where
  tree : s.tree = Tree.empty
  idle : ∀ θ, (s.thread θ).status = .idle
  cursors : ∀ θ cursor, ((s.thread θ).cursors cursor).Created

/-- The transition system of a map of page capacity `N` used by the threads `ι`. -/
def transitions (ι K V : Type) [TotalOrd K] [DecidableEq ι] (N : PageCapacity)
    : TransitionSystem (System ι K V) (Label ι K V) where
  init := Initial
  step := Step N

end System

end BLink
