import BLink.Model.Latches
import BLink.Sequential.Heights

/-! The exhaustive check of a quiescent tree, which the tests of the crate call.
A check returns `Err` with a text at the first fault that it finds. The order of the faults is
that of the source.
-/

namespace BLink

open Library

/-- Why a check ends early: it returns `Err` with a text, or it panics. -/
inductive Fault where
  | rejected (reason : String)
  | panicked (panic : Panic)
  deriving DecidableEq, Repr

/-- `if condition { return Err(String::from(reason)); }`. -/
def rejectIf (condition : Prop) [Decidable condition] (reason : String) : Except Fault Unit :=
  if condition then .error (.rejected reason) else .ok ()

variable {K V : Type} [TotalOrd K]

/-- Tests whether a key belongs to a half-open optional-fence interval. -/
def withinFences (key : KeyHandle K) (low high : Option (KeyHandle K)) : Bool :=
  low.all (fun bound => (compare key.key bound.key).isGE)
    && high.all (fun bound => (compare key.key bound.key).isLT)

/-- Compares optional key handles by their underlying key values. -/
def optionalKeysEqual : (left right : Option (KeyHandle K)) → Bool
  | some left, some right => (compare left.key right.key).isEq
  | none, none => true
  | some _, none | none, some _ => false

/-- No neighbours among the keys are out of order: what the loops over `windows(2)` check. -/
def ascending : List (KeyHandle K) → Bool
  | first :: second :: rest =>
      !(compare first.key second.key).isGE && ascending (second :: rest)
  | _ => true

/-- The low fence that the page `guard` with these separators owes a child. -/
def Node.expectedLow (guard : Node K V) (keys : List (KeyHandle K)) (childIndex : Nat)
    : Except Fault (Option (KeyHandle K)) :=
  if childIndex = 0 then
    .ok guard.lowKey
  else
    ((Array.index keys (childIndex - 1)).map some).mapError .panicked

/-- The high fence that the page `guard` with these separators owes a child. -/
def Node.expectedHigh (guard : Node K V) (keys : List (KeyHandle K)) (childIndex : Nat)
    : Except Fault (Option (KeyHandle K)) :=
  if childIndex = keys.length then
    .ok guard.highKey
  else
    ((Array.index keys childIndex).map some).mapError .panicked

namespace Tree

/-- The loop of `validate_node` over the children of the page `guard`, from `childIndex` on.
`validate` checks the subtree of one child; the state is the depth of the leaves, once it is
known, and the number of records so far.
-/
def validateChildren (t : Tree K V) (guard : Node K V) (keys : List (KeyHandle K))
    (validate : PageId → Option Nat × Nat → Except Fault (Option Nat × Nat))
    : (children : List PageId) → (childIndex : Nat) → Option Nat × Nat
      → Except Fault (Option Nat × Nat)
  | [], _, state => .ok state
  | child :: children, childIndex, state => do
      let expectedLow ← guard.expectedLow keys childIndex
      let expectedHigh ← guard.expectedHigh keys childIndex
      rejectIf
        (optionalKeysEqual (t.page child).lowKey expectedLow = false
          ∨ optionalKeysEqual (t.page child).highKey expectedHigh = false)
        "child fences disagree with parent bounds"
      let state ← validate child state
      t.validateChildren guard keys validate children (childIndex + 1) state

/-- Recursively validates parent ownership, ordering, fences, occupancy, depth, and the
aggregate record count. A page graph with a cycle has no end; `fuel` bounds the recursion.
-/
def validateNode (N : Nat) (t : Tree K V) : (fuel : Nat) → (node : PageId) → (isRoot : Bool)
    → (depth : Nat) → Option Nat × Nat → Except Fault (Option Nat × Nat)
  | 0, _, _, _, _ => .error (.panicked .diverged)
  | fuel + 1, node, isRoot, depth, (leafDepth, recordCount) => do
      let guard := t.page node
      rejectIf (N < guard.occupancy) "page exceeds stable capacity"
      rejectIf (guard.isRoot ≠ isRoot) "page root-role marker is inconsistent"
      rejectIf (isRoot = false ∧ guard.occupancy < guard.minimum N)
        "non-root page is below minimum occupancy"
      match guard.kind with
      | .redirect _ => .error (.rejected "parent tree reaches a retired page")
      | .leaf entries => do
          rejectIf (∃ expected ∈ leafDepth, expected ≠ depth) "leaves do not share one depth"
          rejectIf (ascending (entries.map Entry.key) = false)
            "leaf records are not strictly ordered"
          rejectIf
            (∃ entry ∈ entries, withinFences entry.key guard.lowKey guard.highKey = false)
            "leaf record lies outside page fences"
          return (some depth, recordCount + entries.length)
      | .internal keys children => do
          rejectIf (children.length ≠ keys.length + 1) "internal child/key cardinality mismatch"
          rejectIf (isRoot = true ∧ keys = []) "empty internal root was not collapsed"
          rejectIf (ascending keys = false) "internal separators are not ordered"
          rejectIf (∃ key ∈ keys, withinFences key guard.lowKey guard.highKey = false)
            "separator lies outside page fences"
          t.validateChildren guard keys
            (fun child state => validateNode N t fuel child false (depth + 1) state)
            children 0 (leafDepth, recordCount)

/-- What `validate_sibling_levels` checks of a page's link to `previous`, the page that it has
visited before, if any. `upgrades` tells which weak pointers upgrade.
-/
def validatePrevious (t : Tree K V) (upgrades : PageId → Bool) (guard : Node K V)
    : (previous : Option PageId) → Except Fault Unit
  | none =>
      rejectIf (guard.lowKey.isSome ∨ guard.previous.isSome)
        "leftmost page has a predecessor fence"
  | some previousRef => do
      rejectIf (optionalKeysEqual (t.page previousRef).highKey guard.lowKey = false)
        "adjacent sibling fences disagree"
      match guard.previous.filter upgrades with
      | none => .error (.rejected "sibling lost its predecessor")
      | some back => rejectIf (back ≠ previousRef) "sibling predecessor points elsewhere"

/-- The loop of `validate_sibling_levels` along one level, which may visit `remaining` pages
more.
-/
def validateSiblings (t : Tree K V) (upgrades : PageId → Bool) : (remaining : Nat)
    → (current : PageId) → (previous : Option PageId) → Except Fault Unit
  | 0, _, _ => .error (.rejected "sibling chain contains a cycle")
  | remaining + 1, current, previous => do
      let guard := t.page current
      rejectIf guard.isRedirect "sibling chain retains a redirect"
      t.validatePrevious upgrades guard previous
      match guard.right with
      | some next => t.validateSiblings upgrades remaining next (some current)
      | none => rejectIf guard.highKey.isSome "rightmost page has a finite high fence"

/-- `left.saturating_add(right)`. -/
def saturatingAdd (left right : Nat) : Nat := min (left + right) usizeMax

/-- The loop of `validate_sibling_levels` over the levels from the one that begins at
`levelStart` down.
-/
def validateLevels (t : Tree K V) (upgrades : PageId → Bool) (traversalLimit : Nat)
    : (levels : Nat) → (levelStart : PageId) → Except Fault Unit
  | 0, _ => .ok ()
  | levels + 1, levelStart => do
      t.validateSiblings upgrades traversalLimit levelStart none
      if 0 < levels then
        match (t.page levelStart).kind with
        | .internal _ children => do
            let child ← (Array.index children 0).mapError .panicked
            t.validateLevels upgrades traversalLimit levels child
        | .leaf _ => .error (.rejected "tree height exceeds leaf depth")
        | .redirect _ => .error (.panicked (.unreachable "validated above"))
      else
        .ok ()

/-- Checks every same-level forward/back link. -/
def validateSiblingLevels (t : Tree K V) (upgrades : PageId → Bool) (root : PageId)
    (len height : Nat)
    : Except Fault Unit :=
  t.validateLevels upgrades (saturatingAdd (saturatingAdd len height) 2) height root

/-- Performs an exhaustive quiescent invariant check. -/
def validate (N : Nat) (t : Tree K V) (upgrades : PageId → Bool) (fuel : Nat)
    : Except Fault Unit := do
  let rootGuard := t.page t.root
  rejectIf
    (rootGuard.lowKey.isSome
      ∨ rootGuard.highKey.isSome
      ∨ rootGuard.previous.isSome
      ∨ rootGuard.right.isSome)
    "root must cover the complete key space"
  rejectIf (rootGuard.isRoot = false) "published root is not marked as root"
  rejectIf rootGuard.isRedirect "root must not be a redirect"
  let (_, counted) ← t.validateNode N fuel t.root true 1 (none, 0)
  rejectIf (counted ≠ t.len)
    ("entry counter mismatch: leaves contain " ++ toString counted ++ ", len is "
      ++ toString t.len)
  match t.height fuel with
  | none => .error (.panicked .diverged)
  | some height => t.validateSiblingLevels upgrades t.root t.len height

end Tree

end BLink
