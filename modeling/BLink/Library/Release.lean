import Mathlib.Algebra.BigOperators.Group.List.Basic
import Mathlib.Algebra.GroupWithZero.Nat
import Mathlib.Algebra.Order.BigOperators.Group.List
import Mathlib.Data.List.Nodup
import Mathlib.Data.List.Perm.Subperm
import Mathlib.Logic.Function.Basic
import Mathlib.Logic.Relation

/-! Reference counting over a graph of cells, and the release of its last references.
`refs` lists the references that a cell owns, in the order in which it releases them. A cell
whose count reaches zero is freed: it releases its own references before the release that
freed it goes on, so the cells that are being released form a stack.
-/

namespace Library

universe u

variable {α : Type u}

-----------------------------------------------------------------------------------------
-- What counting frees
-----------------------------------------------------------------------------------------

/-- A cell is collected once no reference to it is left: it is no root, and all cells that
own it are collected.
-/
inductive Collected (isRoot : α → Prop) (owns : α → α → Prop) : α → Prop
  | intro {cell} (unrooted : ¬ isRoot cell) (owners : ∀ owner, owns owner cell → Collected isRoot owns owner)
    : Collected isRoot owns cell

/-- A root leads to the cell by references. -/
def Rooted (isRoot : α → Prop) (owns : α → α → Prop) (cell : α) : Prop :=
  ∃ root, isRoot root ∧ Relation.ReflTransGen owns root cell

variable {isRoot : α → Prop} {owns : α → α → Prop} {cell : α}

theorem Collected.not_rooted (collected : Collected isRoot owns cell)
    : ¬ Rooted isRoot owns cell := by
  induction collected with
  | @intro cell unrooted _ ih =>
      rintro ⟨root, isRoot, path⟩
      cases Relation.ReflTransGen.cases_tail path with
      | inl same => exact unrooted (same ▸ isRoot)
      | inr last =>
          obtain ⟨owner, path, owned⟩ := last
          exact ih owner owned ⟨root, isRoot, path⟩

/-- Without cycles, counting frees everything that no root leads to. -/
theorem collected_iff (rank : α → Nat) (lower : ∀ p q, owns p q → rank p < rank q)
    : Collected isRoot owns cell ↔ ¬ Rooted isRoot owns cell := by
  refine ⟨Collected.not_rooted, ?_⟩
  intro unreached
  induction size : rank cell using Nat.strong_induction_on generalizing cell with
  | _ n ih =>
      refine .intro (fun isRoot => unreached ⟨cell, isRoot, .refl⟩) ?_
      intro owner owned
      refine ih (rank owner) (size ▸ lower _ _ owned) ?_ rfl
      rintro ⟨root, isRoot, path⟩
      exact unreached ⟨root, isRoot, path.tail owned⟩

-----------------------------------------------------------------------------------------
-- The release machine
-----------------------------------------------------------------------------------------

/-- The counts, the cells that are being released with the references that each of them
still has to release, innermost first, and all cells freed so far, the last one first.
-/
structure Releasing (α : Type u) where
  count : α → Nat
  stack : List (α × List α)
  freed : List α

variable [DecidableEq α] {refs : α → List α}

namespace Releasing

/-- Releases one reference to the cell. -/
def drop (refs : α → List α) (s : Releasing α) (cell : α) : Releasing α :=
  let count := Function.update s.count cell (s.count cell - 1)
  if count cell = 0 then
    { count, stack := (cell, refs cell) :: s.stack, freed := cell :: s.freed }
  else
    { s with count }

/-- One step of the release: the innermost cell releases its next reference, or is done. -/
def step (refs : α → List α) (s : Releasing α) : Option (Releasing α) :=
  match s.stack with
  | [] => none
  | (_, []) :: stack => some { s with stack }
  | (cell, ref :: rest) :: stack => some ({ s with stack := (cell, rest) :: stack }.drop refs ref)

/-- One state follows after the other. -/
def Follows (refs : α → List α) (s s' : Releasing α) : Prop := s.step refs = some s'

/-- The states from the first one on. -/
def Reaches (refs : α → List α) : Releasing α → Releasing α → Prop :=
  Relation.ReflTransGen (Follows refs)

/-- The state after some steps, or after the last one. -/
def after (refs : α → List α) : Nat → Releasing α → Releasing α
  | 0, s => s
  | steps + 1, s => (s.step refs).elim s (after refs steps)

theorem reaches_after (refs : α → List α) (steps : Nat) (s : Releasing α)
    : Reaches refs s (s.after refs steps) := by
  induction steps generalizing s with
  | zero => exact .refl
  | succ steps ih =>
      rw [after]
      cases next : s.step refs with
      | none => exact .refl
      | some s' => exact .head next (ih s')

/-- The references of the cells that are not freed yet, with what is being released. -/
def remaining (refs : α → List α) (cells : List α) (s : Releasing α) (cell : α) : Nat :=
  (cells.map (fun owner => if owner ∈ s.freed then 0 else (refs owner).count cell)).sum
    + (s.stack.map (fun frame => frame.2.count cell)).sum

/-- The counts are exact when `held` are the references held elsewhere, and nothing in use
has the count zero.
-/
structure Exact (refs : α → List α) (cells held : List α) (s : Releasing α) : Prop where
  count : ∀ cell ∈ cells, s.count cell = s.remaining refs cells cell + held.count cell
  freed : ∀ cell ∈ s.freed, cell ∈ cells ∧ s.count cell = 0
  nodup : s.freed.Nodup
  positive : ∀ cell ∈ cells, cell ∉ s.freed → 0 < s.count cell
  pending : ∀ frame ∈ s.stack, ∀ ref ∈ frame.2, ref ∈ cells
  held : ∀ ref ∈ held, ref ∈ cells

/-- The steps that are left to take. -/
def work (refs : α → List α) (cells : List α) (s : Releasing α) : Nat :=
  (cells.map (fun owner => if owner ∈ s.freed then 0 else (refs owner).length + 1)).sum
    + (s.stack.map (fun frame => frame.2.length + 1)).sum

variable {cells held : List α} {ref : α} {s s' : Releasing α}

omit [DecidableEq α] in
/-- A sum over distinct cells loses the summand of one of them. -/
theorem sum_free [DecidableEq α] {f : α → Nat} {freed : List α} {cell : α} (nodup : cells.Nodup)
    (member : cell ∈ cells) (fresh : cell ∉ freed)
    : (cells.map (fun owner => if owner ∈ freed then 0 else f owner)).sum
      = (cells.map (fun owner => if owner ∈ cell :: freed then 0 else f owner)).sum
        + f cell := by
  induction cells with
  | nil => cases member
  | cons first rest ih =>
      obtain ⟨absent, nodup⟩ := List.nodup_cons.mp nodup
      rw [List.map_cons, List.map_cons, List.sum_cons, List.sum_cons]
      by_cases here : first = cell
      · subst here
        have same : rest.map (fun owner => if owner ∈ first :: freed then 0 else f owner)
            = rest.map (fun owner => if owner ∈ freed then 0 else f owner) := by
          refine List.map_congr_left (fun owner inside => ?_)
          have other : owner ≠ first := by
            rintro rfl
            exact absent inside
          simp only [List.mem_cons, other, false_or]
        rw [same, if_neg fresh, if_pos List.mem_cons_self]
        omega
      · rw [ih nodup ((List.mem_cons.mp member).resolve_left (Ne.symm here))]
        simp only [List.mem_cons, here, false_or]
        omega

/-- What is referred to is not freed. -/
theorem Exact.fresh (exact : Exact refs cells (ref :: held) s) : ref ∉ s.freed := by
  intro freed
  have count := exact.count ref (exact.held ref List.mem_cons_self)
  rw [(exact.freed ref freed).2, List.count_cons_self] at count
  omega

/-- Releasing a reference that was held elsewhere keeps the counts exact. -/
theorem Exact.drop (exact : Exact refs cells (ref :: held) s) (nodup : cells.Nodup)
    (closed : ∀ cell ∈ cells, ∀ ref ∈ refs cell, ref ∈ cells)
    : Exact refs cells held (s.drop refs ref) := by
  have member := exact.held ref List.mem_cons_self
  have fresh := exact.fresh
  have updated (cell : α) (inside : cell ∈ cells)
      : Function.update s.count ref (s.count ref - 1) cell
        = s.remaining refs cells cell + held.count cell := by
    have count := exact.count cell inside
    rw [List.count_cons] at count
    by_cases here : cell = ref
    · subst here
      rw [Function.update_self]
      simp only [beq_self_eq_true, if_true] at count
      omega
    · rw [Function.update_of_ne here, count]
      simp [Ne.symm here]
  have others : ∀ ref ∈ held, ref ∈ cells :=
    fun other inside => exact.held other (List.mem_cons_of_mem ref inside)
  rw [Releasing.drop]
  split_ifs with zero
  · refine {
      count := ?_
      freed := ?_
      nodup := List.nodup_cons.mpr ⟨fresh, exact.nodup⟩
      positive := ?_
      pending := ?_
      held := others
    }
    · intro cell inside
      refine (updated cell inside).trans ?_
      rw [remaining, remaining]
      simp only [sum_free (f := fun owner => (refs owner).count cell) nodup member fresh,
        List.map_cons, List.sum_cons]
      omega
    · intro cell isFreed
      rcases List.mem_cons.mp isFreed with rfl | earlier
      · exact ⟨member, zero⟩
      · obtain ⟨inside, none⟩ := exact.freed cell earlier
        refine ⟨inside, ?_⟩
        show Function.update s.count ref (s.count ref - 1) cell = 0
        rw [Function.update_of_ne (by rintro rfl; exact fresh earlier), none]
    · intro cell inside unfreed
      obtain ⟨other, unfreed⟩ := not_or.mp (List.mem_cons.not.mp unfreed)
      show 0 < Function.update s.count ref (s.count ref - 1) cell
      rw [Function.update_of_ne other]
      exact exact.positive cell inside unfreed
    · intro frame isFrame ref' isRef
      rcases List.mem_cons.mp isFrame with rfl | below
      · exact closed ref member ref' isRef
      · exact exact.pending frame below ref' isRef
  · refine {
      count := updated
      freed := ?_
      nodup := exact.nodup
      positive := ?_
      pending := exact.pending
      held := others
    }
    · intro cell isFreed
      obtain ⟨inside, none⟩ := exact.freed cell isFreed
      refine ⟨inside, ?_⟩
      show Function.update s.count ref (s.count ref - 1) cell = 0
      rw [Function.update_of_ne (by rintro rfl; exact fresh isFreed), none]
    · intro cell inside unfreed
      by_cases here : cell = ref
      · subst here
        exact Nat.pos_of_ne_zero zero
      · show 0 < Function.update s.count ref (s.count ref - 1) cell
        rw [Function.update_of_ne here]
        exact exact.positive cell inside unfreed

/-- The innermost cell's next reference is about to be released. -/
theorem Exact.take {frame : α} {rest : List α} {stack : List (α × List α)}
    (exact : Exact refs cells held s) (top : s.stack = (frame, ref :: rest) :: stack)
    : Exact refs cells (ref :: held) { s with stack := (frame, rest) :: stack } where
  count := by
    intro cell inside
    refine (exact.count cell inside).trans ?_
    rw [remaining, remaining, top]
    simp only [List.map_cons, List.sum_cons, List.count_cons]
    omega
  freed := exact.freed
  nodup := exact.nodup
  positive := exact.positive
  pending := by
    intro frame' isFrame ref' isRef
    rcases List.mem_cons.mp isFrame with rfl | below
    · exact exact.pending (frame, ref :: rest) (by simp [top]) ref' (List.mem_cons_of_mem ref isRef)
    · exact exact.pending frame' (by simp [top, below]) ref' isRef
  held := by
    intro ref' isRef
    rcases List.mem_cons.mp isRef with rfl | other
    · exact exact.pending (frame, ref' :: rest) (by simp [top]) ref' List.mem_cons_self
    · exact exact.held ref' other

/-- The two kinds of steps. -/
theorem Follows.cases (follows : Follows refs s s')
    : (∃ cell stack, s.stack = (cell, []) :: stack ∧ s' = { s with stack })
      ∨ ∃ cell ref rest stack,
          s.stack = (cell, ref :: rest) :: stack
          ∧ s' = { s with stack := (cell, rest) :: stack }.drop refs ref := by
  rw [Follows, Releasing.step] at follows
  split at follows
  · cases follows
  · exact .inl ⟨_, _, ‹_›, (Option.some.inj follows).symm⟩
  · exact .inr ⟨_, _, _, _, ‹_›, (Option.some.inj follows).symm⟩

/-- Every step of a release keeps the counts exact. -/
theorem Exact.step (exact : Exact refs cells held s) (nodup : cells.Nodup)
    (closed : ∀ cell ∈ cells, ∀ ref ∈ refs cell, ref ∈ cells) (follows : Follows refs s s')
    : Exact refs cells held s' := by
  rcases follows.cases with ⟨cell, stack, top, rfl⟩ | ⟨cell, ref, rest, stack, top, rfl⟩
  · refine { exact with count := ?_, pending := ?_ }
    · intro cell inside
      refine (exact.count cell inside).trans ?_
      rw [remaining, remaining, top]
      simp
    · intro frame isFrame
      exact exact.pending frame (by rw [top]; exact List.mem_cons_of_mem _ isFrame)
  · exact (exact.take top).drop nodup closed

/-- Every step of a release does one unit of the work. -/
theorem Exact.work_step (exact : Exact refs cells held s) (nodup : cells.Nodup)
    (follows : Follows refs s s')
    : work refs cells s = work refs cells s' + 1 := by
  rcases follows.cases with ⟨cell, stack, top, rfl⟩ | ⟨cell, ref, rest, stack, top, rfl⟩
  · rw [work, work, top]
    simp only [List.map_cons, List.sum_cons, List.length_nil]
    omega
  · have taken := exact.take top
    rw [Releasing.drop, work, work, top]
    split_ifs with zero
    · simp only [sum_free (f := fun owner => (refs owner).length + 1) nodup
        (taken.held ref List.mem_cons_self) taken.fresh, List.map_cons, List.sum_cons,
        List.length_cons]
      omega
    · simp only [List.map_cons, List.sum_cons, List.length_cons]
      omega

/-- A release comes to its end, at a state that is exact again. -/
theorem Exact.ends (exact : Exact refs cells held s) (nodup : cells.Nodup)
    (closed : ∀ cell ∈ cells, ∀ ref ∈ refs cell, ref ∈ cells)
    : ∃ final, Reaches refs s final ∧ final.stack = [] ∧ Exact refs cells held final := by
  induction size : work refs cells s generalizing s with
  | zero =>
      refine ⟨s, .refl, ?_, exact⟩
      cases top : s.stack with
      | nil => rfl
      | cons frame stack =>
          rw [work, top] at size
          simp at size
  | succ n ih =>
      cases next : s.step refs with
      | none =>
          refine ⟨s, .refl, ?_, exact⟩
          rw [Releasing.step] at next
          split at next
          · assumption
          · cases next
          · cases next
      | some s' =>
          have done := exact.work_step nodup next
          obtain ⟨final, path, rest⟩ := ih (exact.step nodup closed next) (by omega)
          exact ⟨final, .head next path, rest⟩

/-- Without cycles, a release that has ended with no reference held has freed everything. -/
theorem Exact.freed_all (exact : Exact refs cells [] s) (nodup : cells.Nodup)
    (ended : s.stack = []) (rank : α → Nat)
    (lower : ∀ p ∈ cells, ∀ q ∈ refs p, rank p < rank q)
    : s.freed.Perm cells := by
  have all (cell : α) (inside : cell ∈ cells) : cell ∈ s.freed := by
    induction size : rank cell using Nat.strong_induction_on generalizing cell with
    | _ n ih =>
        by_contra unfreed
        have positive := exact.positive cell inside unfreed
        rw [exact.count cell inside, remaining, ended, List.map_nil, List.sum_nil, List.count_nil,
          Nat.add_zero, Nat.add_zero] at positive
        obtain ⟨summand, isSummand, nonzero⟩ := List.exists_mem_ne_zero_of_sum_ne_zero
          (Nat.ne_of_gt positive)
        obtain ⟨owner, isOwner, rfl⟩ := List.mem_map.mp isSummand
        split_ifs at nonzero with isFreed
        · exact nonzero rfl
        · have owned : cell ∈ refs owner := List.count_pos_iff.mp (Nat.pos_of_ne_zero nonzero)
          exact isFreed (ih (rank owner) (size ▸ lower owner isOwner cell owned) owner isOwner rfl)
  exact (List.perm_ext_iff_of_nodup exact.nodup nodup).mpr
    (fun cell => ⟨fun isFreed => (exact.freed cell isFreed).1, all cell⟩)

/-- Before the release, with one reference held to the cell `root`. -/
def owned (refs : α → List α) (cells : List α) (root : α) : Releasing α where
  count cell := (cells.map (fun owner => (refs owner).count cell)).sum + [root].count cell
  stack := []
  freed := []

theorem exact_owned {root : α} (member : root ∈ cells)
    (owners : ∀ cell ∈ cells, cell ≠ root → ∃ owner ∈ cells, cell ∈ refs owner)
    : Exact refs cells [root] (owned refs cells root) where
  count := by
    intro cell inside
    simp [owned, remaining]
  freed := by
    rintro cell ⟨⟩
  nodup := List.nodup_nil
  positive := by
    intro cell inside _
    rw [owned]
    by_cases here : cell = root
    · subst here
      simp
    · obtain ⟨owner, isOwner, isRef⟩ := owners cell inside here
      refine Nat.add_pos_left ?_ _
      refine List.sum_pos_iff_exists_pos_nat.mpr ⟨(refs owner).count cell, ?_, ?_⟩
      · exact List.mem_map.mpr ⟨owner, isOwner, rfl⟩
      · exact List.count_pos_iff.mpr isRef
  pending := by
    rintro frame ⟨⟩
  held := by
    intro ref isRef
    rwa [List.mem_singleton.mp isRef]

/-- Without cycles, the release of the only root frees every cell that it leads to, once. -/
theorem release_frees {root : α} (nodup : cells.Nodup) (member : root ∈ cells)
    (closed : ∀ cell ∈ cells, ∀ ref ∈ refs cell, ref ∈ cells)
    (owners : ∀ cell ∈ cells, cell ≠ root → ∃ owner ∈ cells, cell ∈ refs owner)
    (rank : α → Nat) (lower : ∀ p ∈ cells, ∀ q ∈ refs p, rank p < rank q)
    : ∃ final,
        Reaches refs ((owned refs cells root).drop refs root) final
        ∧ final.step refs = none
        ∧ final.freed.Perm cells := by
  have exact := (exact_owned member owners).drop nodup closed
  obtain ⟨final, path, ended, last⟩ := exact.ends nodup closed
  exact ⟨final, path, by rw [step, ended], last.freed_all nodup ended rank lower⟩

-----------------------------------------------------------------------------------------
-- How deep releases nest
-----------------------------------------------------------------------------------------

/-- The cells that are being released have ranks that fall from the bottom of the stack to its
top, and each has only references of its own to release.
-/
def Nests (refs : α → List α) (ranked : α → Nat → Prop) (bound : Nat)
    : List (α × List α) → Prop
  | [] => True
  | frame :: below =>
      (∃ rank, ranked frame.1 rank ∧ rank + below.length ≤ bound)
      ∧ (∀ ref ∈ frame.2, ref ∈ refs frame.1)
      ∧ Nests refs ranked bound below

variable {ranked : α → Nat → Prop} {bound : Nat} {root : α}

/-- Releasing a reference to a cell of low enough rank. -/
theorem Nests.drop {rank : Nat} (nests : Nests refs ranked bound s.stack) (isRank : ranked ref rank)
    (enough : rank + s.stack.length ≤ bound)
    : Nests refs ranked bound (s.drop refs ref).stack := by
  rw [Releasing.drop]
  split_ifs
  · exact ⟨⟨rank, isRank, enough⟩, fun _ isRef => isRef, nests⟩
  · exact nests

theorem Nests.step (nests : Nests refs ranked bound s.stack)
    (lower : ∀ p n q, ranked p n → q ∈ refs p → ∃ m, m < n ∧ ranked q m)
    (follows : Follows refs s s')
    : Nests refs ranked bound s'.stack := by
  cases follows.cases with
  | inl done =>
      obtain ⟨cell, stack, top, rfl⟩ := done
      rw [top] at nests
      exact nests.2.2
  | inr drops =>
      obtain ⟨cell, ref, rest, stack, top, rfl⟩ := drops
      rw [top] at nests
      obtain ⟨⟨rank, isRank, enough⟩, own, below⟩ := nests
      obtain ⟨less, isLess, ranks⟩ := lower cell rank ref isRank (own ref List.mem_cons_self)
      have kept : Nests refs ranked bound ((cell, rest) :: stack) :=
        ⟨⟨rank, isRank, enough⟩, fun other inside => own other (List.mem_cons_of_mem _ inside), below⟩
      apply Nests.drop (s := { s with stack := (cell, rest) :: stack }) kept ranks
      show less + (stack.length + 1) ≤ bound
      have least : rank + stack.length ≤ bound := enough
      omega

/-- Where references lower the rank, which is positive, a release nests no deeper than the
rank of the cell that it begins with.
-/
theorem stack_le (lower : ∀ p n q, ranked p n → q ∈ refs p → ∃ m, m < n ∧ ranked q m)
    (positive : ∀ p n, ranked p n → 0 < n) (isRank : ranked root bound) (empty : s.stack = [])
    (reaches : Reaches refs (s.drop refs root) s')
    : s'.stack.length ≤ bound := by
  have nests : Nests refs ranked bound s'.stack := by
    induction reaches with
    | refl =>
        refine Nests.drop ?_ isRank (by simp [empty])
        rw [empty]
        trivial
    | tail _ follows ih => exact ih.step lower follows
  cases stack : s'.stack with
  | nil => exact Nat.zero_le _
  | cons frame below =>
      rw [stack] at nests
      obtain ⟨⟨rank, ranks, enough⟩, -⟩ := nests
      have one := positive _ _ ranks
      rw [List.length_cons]
      omega

end Releasing

end Library
