import BLink.Model.Latches

/-! Public entry guards, and threads that write through them.
A guard keeps the latch of its record's leaf together with the record's index in the leaf.
Between its calls a thread may change the value of a record whose leaf an `EntryMut` has
latched exclusively.
-/

namespace BLink

open Library

variable {K V : Type}

/-- A read guard for an entry: the leaf that it keeps latched, and the index of the entry. -/
structure EntryRef where
  page : PageId
  index : Nat
  deriving DecidableEq, Repr

/-- A write guard for an entry, which keeps its leaf latched exclusively. -/
structure EntryMut extends EntryRef

/-- `EntryRef::new`: a guard takes over the latch of its record's leaf, with the record's index. -/
def EntryRef.new (guard : PageId) (index : Nat) : EntryRef := { page := guard, index }

/-- Resolves the index of a guard inside its leaf. -/
def EntryRef.entry (guard : EntryRef) (t : Tree K V) : Except Panic (Entry K V) :=
  match (t.page guard.page).kind with
  | .internal _ _ | .redirect _ => .error (.unreachable "an entry guard must hold a leaf")
  | .leaf entries => Array.index entries guard.index

/-- The key of a guarded entry. -/
def EntryRef.key (guard : EntryRef) (t : Tree K V) : Except Panic K := do
  return (← guard.entry t).key.key

/-- The value of a guarded entry. -/
def EntryRef.value (guard : EntryRef) (t : Tree K V) : Except Panic V := do
  return (← guard.entry t).value

/-- Changes the value to which `value_mut` gives access: the index is resolved inside the leaf,
and the entry there is changed in place.
-/
def EntryMut.valueMut (guard : EntryMut) (change : V → V) (t : Tree K V)
    : Except Panic (Tree K V) :=
  match (t.page guard.page).kind with
  | .internal _ _ | .redirect _ => .error (.unreachable "an entry guard must hold a leaf")
  | .leaf entries => do
      let entry ← Array.index entries guard.index
      let entries ←
        Array.assign entries guard.index { entry with value := change entry.value }
      return t.setPage guard.page { t.page guard.page with kind := .leaf entries }

/-- The guard that a thread makes of the last latch that it holds and the index that its call
has found.
-/
def Machine.entryRef {ι : Type} [TotalOrd K] (m : Machine ι K V) (θ : ι) : Option EntryRef :=
  match (m.worker θ).held, m.index θ with
  | [(.page guard, _)], some index => some (.new guard index)
  | _, _ => none

/-- What happens in one step: one of the steps of the machine, or an idle thread changes the
value of a guarded entry, which was `entry` before.
-/
inductive GuardedAction (ι K V : Type) [TotalOrd K] where
  | machine (action : Action ι K V)
  | write (thread : ι) (guard : EntryMut) (change : V → V) (entry : Entry K V)

variable {ι : Type} [TotalOrd K] [DecidableEq ι]

/-- One step of the machine, or one change through a retained write guard. -/
inductive Machine.GuardedStep (N : PageCapacity) (m : Machine ι K V)
    : GuardedAction ι K V → Machine ι K V → Prop
  | machine {action m'} (step : Step N m action m') : GuardedStep N m (.machine action) m'
  | write {θ guard change entry t'} (idle : (m.system.thread θ).status = .idle)
    (retained : (.page guard.page, .exclusive) ∈ m.guards)
    (resolves : guard.entry m.system.tree = .ok entry)
    (changed : guard.valueMut change m.system.tree = .ok t')
    : GuardedStep N m (.write θ guard change entry)
        { m with system := { m.system with tree := t' } }

/-- The transition system of a map of page capacity `N` whose users also write through the
guards that they retain.
-/
def Machine.guarded (ι K V : Type) [TotalOrd K] [DecidableEq ι] (N : PageCapacity)
    : TransitionSystem (Machine ι K V) (GuardedAction ι K V) where
  init := Initial
  step := GuardedStep N

end BLink
