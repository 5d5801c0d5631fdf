import BLink.Latching.Stages
import BLink.Runs.Ownership

/-! The order in which threads wait for latches while they hold others.
They wait from the root slot for the root page, from a superfluous root for its only child,
and from a page for pages further right in its line.
-/

namespace BLink

open Library

variable {K V : Type} [TotalOrd K]

variable {N : Nat} {t : Tree K V} {shape : Shape} {levels : Levels PageId} {pc : Pc K V}
  {held : List (Latch × Mode)} {p q : PageId}

omit [TotalOrd K] in
theorem Tree.owns_child {keys : List (KeyHandle K)} {children : List PageId}
    (kind : (t.page p).kind = .internal keys children) (member : q ∈ children)
    : t.Owns p q := by
  refine .inr ?_
  rw [kind]
  exact member

-----------------------------------------------------------------------------------------
-- What a thread waits for is allocated
-----------------------------------------------------------------------------------------

/-- The page whose latch a thread waits for or tries. -/
def Phase.wants : Phase → Option PageId
  | .await (.page p) _ | .attempt p | .hop p => some p
  | _ => none

/-- The page of a single latch is among the thread's references. -/
theorem PcOk.sole_allocated {mode : Mode} (ok : PcOk t shape pc) (inv : Inv N t shape)
    (sole : pc.soleLatch = some (.page p, mode))
    : p < t.pages := by
  cases pc with
  | leafRead | leafWrite | rightmostLeaf => cases sole; exact ok
  | seekRight | lastEntry =>
      cases sole
      obtain ⟨s, inRow, resolves⟩ := ok
      exact inv.allocated_of_resolves resolves inRow
  | leftmostLeaf =>
      cases sole
      obtain ⟨l, s, inRow, -, resolves⟩ := ok
      exact inv.allocated_of_resolves resolves inRow
  | firstEntry =>
      cases sole
      obtain ⟨s, inRow, -, resolves⟩ := ok
      exact inv.allocated_of_resolves resolves inRow
  | mergeClear => cases sole; exact (inv.forwards _ _ ok.retired).2
  | _ => cases sole

/-- The first latch of a section is the root slot's, or that of a page that is allocated. -/
theorem PcOk.first_allocated (ok : PcOk t shape pc) (inv : Inv N t shape)
    (wants : (t.plan N pc []).wants = some p)
    : p < t.pages := by
  cases sole : pc.soleLatch with
  | some latch =>
      obtain ⟨latch, mode⟩ := latch
      rw [Pc.plan_sole sole] at wants
      cases latch with
      | slot => cases wants
      | page => cases wants; exact ok.sole_allocated inv sole
  | none =>
      cases pc with
      | insertAttempt | removeAttempt => cases wants; exact ok
      | repairSplitBacklink _ _ _ oldSuccessor =>
          cases oldSuccessor with
          | none => cases wants
          | some => cases wants; exact ok.1
      | mergeWalk => cases wants; exact ok.2
      | splitRootIfFull | shrinkRoot | loadLen | loadIsEmpty | mergeUpgrade | candidate | done
      | panicked => cases wants
      | _ => cases sole

omit [TotalOrd K] in
theorem Tree.path_allocated (forwards : ∀ p q, t.forward p = some q → p < t.pages ∧ q < t.pages)
    (path : Relation.ReflTransGen t.Forwards p q) (allocated : p < t.pages)
    : q < t.pages := by
  cases Relation.ReflTransGen.cases_tail path with
  | inl same => exact same ▸ allocated
  | inr last =>
      obtain ⟨_, -, forward⟩ := last
      exact (forwards _ _ forward).2

/-- Threads latch only pages that are allocated. -/
theorem Stage.wanted_allocated {phase : Phase} (stage : Stage N t pc held phase)
    (ok : PcOk t shape pc) (inv : Inv N t shape) (ordered : Ordered t shape levels)
    (wants : phase.wants = some p)
    : p < t.pages := by
  have right {p q : PageId} (allocated : p < t.pages) (points : (t.page p).right = some q)
      : q < t.pages :=
    ordered.owned_allocated inv allocated (.inl points)
  cases stage with
  | first => exact ok.first_allocated inv wants
  | splitSlot | shrinkSlot => cases wants; exact inv.root_active.1
  | shrinkChild superfluous =>
      cases wants
      rcases superfluous with ⟨rest, kind⟩ | retired
      · exact ordered.owned_allocated inv inv.root_active.1
          (Tree.owns_child kind List.mem_cons_self)
      · exact (inv.forwards _ _ retired).2
  | insertTries tries =>
      cases wants
      obtain ⟨keys, children, kind, member⟩ := Node.childToLatch_internal tries
      exact ordered.owned_allocated inv ok (Tree.owns_child kind member)
  | removeTries tries =>
      cases wants
      obtain ⟨keys, children, kind, member, -⟩ := Node.siblingsToLatch_internal tries
      exact ordered.owned_allocated inv ok (Tree.owns_child kind member)
  | removeTriesSecond tries =>
      cases wants
      obtain ⟨keys, children, kind, -, member⟩ := Node.siblingsToLatch_internal tries
      exact ordered.owned_allocated inv ok (Tree.owns_child kind member)
  | repairWaits active points path =>
      cases wants
      exact Tree.path_allocated inv.forwards path (right ok.1 points)
  | repairHops active points path forwards => cases wants; exact (inv.forwards _ _ forwards).2
  | walkWaits active points waits =>
      cases wants
      cases waits with
      | next => exact right ok.2 points
      | linked | hopped => exact (inv.forwards _ _ ok.1.retired).2
  | walkHops => cases wants; exact (inv.forwards _ _ ok.1.retired).2
  | _ => cases wants

-----------------------------------------------------------------------------------------
-- Waiting with a latch
-----------------------------------------------------------------------------------------

/-- A thread waits for the second latch while the first one is the newest that it holds: from
the root slot for the root page, from a root page for its only child, and from a page for one
further right on its level.
-/
inductive Orderly (t : Tree K V) (levels : Levels PageId) : Latch → Latch → Prop
  | root : Orderly t levels .slot (.page t.root)
  | onlyChild {child : PageId} (kind : (t.page t.root).kind = .internal [] [child])
    : Orderly t levels (.page t.root) (.page child)
  | right {page further : PageId} (left : levels.Left page further)
    : Orderly t levels (.page page) (.page further)

omit [TotalOrd K] in
/-- A page that forwarding pointers pass on the way to an active page slides to that page. -/
theorem Slides.of_path {first final : PageId} (slides : Slides t levels first final)
    (settled : t.forward final = none) (path : Relation.ReflTransGen t.Forwards first q)
    : Slides t levels q final ∧ Slides t levels first q := by
  induction path with
  | refl => exact ⟨slides, .refl⟩
  | tail _ forwards ih =>
      obtain ⟨rest, passed⟩ := ih
      cases Relation.ReflTransGen.cases_head rest with
      | inl same =>
          rw [Tree.Forwards, same, settled] at forwards
          cases forwards
      | inr first =>
          obtain ⟨next, within, rest⟩ := first
          cases forwards.symm.trans within.1
          exact ⟨rest, passed.tail within⟩

/-- From an active page, whatever its right link leads through stands further right. -/
theorem Ordered.left_of_path {next : PageId} (ordered : Ordered t shape levels)
    (inv : Inv N t shape) (active : t.forward p = none) (allocated : p < t.pages)
    (points : (t.page p).right = some next) (path : Relation.ReflTransGen t.Forwards next q)
    : levels.Left p q := by
  obtain ⟨l, member⟩ := (inv.active_iff p).mp ⟨allocated, active⟩
  obtain ⟨successor, inRow, resolves, -⟩ := inv.exists_successor member points
  have slides := ordered.slides_of_right inv member points resolves inRow
  exact ordered.left_of_right allocated points
    (slides.of_path (inv.active inRow).2 path).2

/-- A root without separators has one child. -/
theorem Inv.only_child {child : PageId} {rest : List PageId} (inv : Inv N t shape)
    (kind : (t.page t.root).kind = .internal [] (child :: rest))
    : rest = [] := by
  have length := (inv.content_internal inv.root_mem kind).length
  exact List.length_eq_zero_iff.mp (by simpa using length)

/-- A thread that waits with latches in hand waits orderly, and holds no more than one latch,
or the root slot and the root page.
-/
theorem Stage.orderly {newest : Latch × Mode} {rest : List (Latch × Mode)} {wanted : Latch}
    {mode : Mode} (stage : Stage N t pc (newest :: rest) (.await wanted mode))
    (ok : PcOk t shape pc) (inv : Inv N t shape) (ordered : Ordered t shape levels)
    : Orderly t levels newest.1 wanted
      ∧ (rest = [] ∨ newest.1 = .page t.root ∧ rest = [(.slot, .exclusive)]) := by
  generalize latches : newest :: rest = held at stage
  generalize waits : Phase.await wanted mode = phase at stage
  cases stage with
  | first => cases latches
  | splitSlot | shrinkSlot => cases latches; cases waits; exact ⟨.root, .inl rfl⟩
  | @shrinkChild _ _ child superfluous =>
      cases latches
      cases waits
      refine ⟨?_, .inr ⟨rfl, rfl⟩⟩
      rcases superfluous with ⟨rest, kind⟩ | retired
      · rw [inv.only_child kind] at kind
        exact .onlyChild kind
      · rw [inv.root_active.2] at retired
        cases retired
  | repairWaits active points path =>
      cases latches
      cases waits
      exact ⟨.right (ordered.left_of_path inv active ok.1 points path), .inl rfl⟩
  | walkWaits active points goes =>
      cases latches
      cases waits
      refine ⟨.right ?_, .inl rfl⟩
      have left {q : PageId} := ordered.left_of_path (q := q) inv active ok.2 points
      cases goes with
      | next => exact left .refl
      | linked linked =>
          cases linked with
          | inl retired =>
              subst retired
              exact left (.single ok.1.retired)
          | inr survivor =>
              subst survivor
              exact left .refl
      | hopped forwards => exact left (.single forwards)
  | _ => cases waits

/-- The order of all latches: the root slot, and then the pages as they stand in the lines. -/
def Latch.Before (levels : Levels PageId) : Latch → Latch → Prop
  | .slot, .page _ => True
  | .page p, .page q => levels.Ahead p q
  | _, .slot => False

theorem Latch.Before.irrefl (latch : Latch) : ¬ latch.Before levels latch := by
  cases latch with
  | slot => exact id
  | page p => exact Levels.Ahead.irrefl

theorem Latch.Before.trans (first second third : Latch) (before : first.Before levels second)
    (after : second.Before levels third)
    : first.Before levels third := by
  cases third with
  | slot => cases second <;> exact after.elim
  | page =>
      cases second with
      | slot => cases first <;> exact before.elim
      | page =>
          cases first with
          | slot => trivial
          | page => exact Levels.Ahead.trans before after

/-- Everything that a waiting thread holds comes before what it waits for. -/
theorem Stage.holds_before {holding : Latch × Mode} {wanted : Latch} {mode : Mode}
    (stage : Stage N t pc held (.await wanted mode)) (ok : PcOk t shape pc)
    (inv : Inv N t shape) (ordered : Ordered t shape levels) (member : holding ∈ held)
    : holding.1.Before levels wanted := by
  cases held with
  | nil => cases member
  | cons newest rest =>
      obtain ⟨orderly, few⟩ := stage.orderly ok inv ordered
      have newestBefore : newest.1.Before levels wanted := by
        generalize newest.1 = latch at orderly
        cases orderly with
        | root => trivial
        | onlyChild kind =>
            exact ordered.owns inv inv.root_active.1 (Tree.owns_child kind List.mem_cons_self)
        | right left => exact .inl left
      cases List.mem_cons.mp member with
      | inl same => exact same ▸ newestBefore
      | inr later =>
          rcases few with rfl | ⟨isRoot, rfl⟩
          · cases later
          · obtain rfl := List.mem_singleton.mp later
            rw [isRoot] at orderly
            cases orderly <;> trivial

end BLink
