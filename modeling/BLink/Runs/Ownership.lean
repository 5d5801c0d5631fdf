import BLink.Model.Ownership
import BLink.Runs.Schedule
import BLink.Runs.SiblingChains
import BLink.Sections.Order

/-! No ownership cycles among pages.
All pages stand in lines, and all strong references lead ahead in them. Hence counting
references frees every page that nothing leads to any more, and dropping an unused map frees
the rest.
-/

namespace BLink

open Library

variable {ι K V : Type} [TotalOrd K]

-----------------------------------------------------------------------------------------
-- The order of the pages in reachable states
-----------------------------------------------------------------------------------------

/-- The system is good, and its pages stand in the lines. -/
structure Arranged (N : PageCapacity) (s : System ι K V) (shape : Shape)
    (levels : Levels PageId)
    : Prop where
  ok : SystemOk N s shape
  ordered : Ordered s.tree shape levels

/-- The first page stands alone in the lowest line. -/
def Levels.first : Levels PageId where
  line := Shape.single.row
  nodup l := by cases l <;> simp [Shape.single]
  disjoint inFirst inSecond := by
    rw [(Shape.mem_single.mp inFirst).1, (Shape.mem_single.mp inSecond).1]

omit [TotalOrd K] in
theorem Ordered.empty : Ordered (Tree.empty : Tree K V) Shape.single Levels.first where
  allocated p := by
    show p < 1 ↔ _
    simp only [Levels.first, Shape.mem_single, exists_eq_left, Nat.lt_one_iff]
  row l := .refl _
  right := by rintro p q - ⟨⟩
  forward := by rintro p q ⟨⟩
  passes := by rintro p q a ⟨⟨⟩, -⟩
  behind := by rintro p s w - - ⟨⟩

variable [DecidableEq ι] {N : PageCapacity} {s s' : System ι K V} {shape : Shape}
  {levels : Levels PageId}

/-- Every step leads from an arranged state to an arranged state. -/
theorem Arranged.step {label : Label ι K V} (arranged : Arranged N s shape levels)
    (step : (System.transitions ι K V N).step s label s')
    : ∃ shape' levels', Arranged N s' shape' levels' := by
  have ok := arranged.ok
  cases label with
  | invoke θ call =>
      cases step with
      | invoke idle => exact ⟨shape, levels, ok.invoke idle call, arranged.ordered⟩
  | pass θ latched upgraded =>
      obtain ⟨call, pc, t', pc', passed⟩ := ok.section_step step
      obtain ⟨shape', advance, -⟩ := passed.preserved ok
      obtain ⟨levels', ordered, -⟩ :=
        passed.effect.ordered ok.inv N.three_le advance.inv arranged.ordered
      refine ⟨shape', levels', passed.systemOk ok advance, ?_⟩
      rw [passed.target]
      exact ordered
  | respond θ call response =>
      cases step with
      | respond done => exact ⟨shape, levels, ok.respond done, arranged.ordered⟩

/-- Every reachable state is arranged. -/
theorem reachable_arranged (reached : (System.transitions ι K V N).Reachable s)
    : ∃ shape levels, Arranged N s shape levels := by
  refine reached.invariant (I := fun s => ∃ shape levels, Arranged N s shape levels) ?_ ?_
  · intro s initial
    refine ⟨Shape.single, Levels.first, initial.ok, ?_⟩
    rw [initial.tree]
    exact .empty
  · rintro s label s' - ⟨shape, levels, arranged⟩ step
    exact arranged.step step

section

variable {n : Nat} {t : Tree K V} {p q : PageId}

/-- What an allocated page refers to is allocated. -/
theorem Ordered.owned_allocated (ordered : Ordered t shape levels) (inv : Inv n t shape)
    (allocated : p < t.pages) (owns : t.Owns p q)
    : q < t.pages := by
  apply (ordered.allocated q).mpr
  cases ordered.owns inv allocated owns with
  | inl left =>
      obtain ⟨l, before⟩ := left
      exact ⟨l, before.mem.2⟩
  | inr above =>
      obtain ⟨_, m, _, _, below⟩ := above
      exact ⟨m, below⟩

/-- A path of strong references from an allocated page leads ahead, to an allocated page. -/
theorem Ordered.ahead_of_path (ordered : Ordered t shape levels) (inv : Inv n t shape)
    (allocated : p < t.pages) (path : Relation.TransGen t.Owns p q)
    : levels.Ahead p q ∧ q < t.pages := by
  induction path with
  | single first =>
      exact ⟨ordered.owns inv allocated first, ordered.owned_allocated inv allocated first⟩
  | tail _ last ih =>
      obtain ⟨ahead, bound⟩ := ih
      exact ⟨ahead.trans (ordered.owns inv bound last), ordered.owned_allocated inv bound last⟩

/-- Pages are ranked so that every strong reference leads up. -/
theorem Ordered.exists_rank (ordered : Ordered t shape levels) (inv : Inv n t shape)
    : ∃ rank : PageId → Nat, ∀ p < t.pages, ∀ q, t.Owns p q → rank p < rank q := by
  obtain ⟨rank, bound, lower⟩ := levels.exists_rank t.pages
  refine ⟨fun p => t.pages - rank p, ?_⟩
  intro p allocated q owns
  have less := lower p q (ordered.owned_allocated inv allocated owns)
    (ordered.owns inv allocated owns)
  have most := bound p
  show t.pages - rank p < t.pages - rank q
  omega

end

-----------------------------------------------------------------------------------------
-- What is freed
-----------------------------------------------------------------------------------------

/-- An allocated page owns a strong reference. -/
def Tree.AllocatedOwns (t : Tree K V) (p q : PageId) : Prop := p < t.pages ∧ t.Owns p q

omit [DecidableEq ι] in
/-- Counting frees every page that is not alive. -/
theorem Arranged.collected (arranged : Arranged N s shape levels) {p : PageId}
    (dead : ¬ s.Alive p)
    : Collected s.Holds s.tree.AllocatedOwns p := by
  obtain ⟨rank, lower⟩ := arranged.ordered.exists_rank arranged.ok.inv
  refine (collected_iff rank (fun p q owns => lower p owns.1 q owns.2)).mpr ?_
  intro rooted
  obtain ⟨origin, holds, path⟩ := rooted
  exact dead ⟨origin, holds, Relation.ReflTransGen.mono (fun _ _ owns => owns.2) _ _ path⟩

omit [DecidableEq ι] in
/-- Without running calls, only the root slot keeps pages alive. -/
theorem System.alive_iff_of_idle (idle : ∀ θ, (s.thread θ).status = .idle) {p : PageId}
    : s.Alive p ↔ Relation.ReflTransGen s.tree.Owns s.tree.root p := by
  constructor
  · intro alive
    obtain ⟨origin, begins, path⟩ := alive
    cases begins with
    | inl isRoot => exact isRoot ▸ path
    | inr running =>
        obtain ⟨θ, call, pc, running, -⟩ := running
        rw [idle θ] at running
        cases running
  · exact fun path => ⟨s.tree.root, .inl rfl, path⟩

/-- Every active page is alive. -/
theorem Inv.root_leads {n : Nat} {t : Tree K V} {p : PageId} (inv : Inv n t shape)
    (active : t.Active p)
    : Relation.ReflTransGen t.Owns t.root p := by
  obtain ⟨depth, member⟩ := inv.active_iff_level.mp active
  exact Tree.owns_of_mem_level member

omit [TotalOrd K] in
/-- Retired pages hold no records. -/
theorem Tree.entries_of_retired {t : Tree K V} {p target : PageId}
    (retired : t.forward p = some target)
    : t.entries p = [] := by
  rw [Tree.forward_eq] at retired
  rw [Tree.entries]
  cases kind : (t.page p).kind with
  | leaf | internal => rw [kind] at retired; cases retired
  | redirect => rfl

/-- What a filter takes away matters nothing when nothing comes of it. -/
theorem flatMap_filter {α β : Type} {f : α → List β} {keep : α → Bool} {items : List α}
    (nothing : ∀ item ∈ items, keep item = false → f item = [])
    : (items.filter keep).flatMap f = items.flatMap f := by
  induction items with
  | nil => rfl
  | cons item items ih =>
      have rest := ih (fun other member => nothing other (List.mem_cons_of_mem item member))
      cases kept : keep item with
      | true => simp [kept, rest]
      | false => simp [kept, rest, nothing item List.mem_cons_self kept]

omit [DecidableEq ι] in
/-- Dropping a map that nothing else refers to frees all its pages with all records. -/
theorem Arranged.drop_frees (arranged : Arranged N s shape levels)
    (idle : ∀ θ, (s.thread θ).status = .idle)
    : ∃ cells final,
        cells.Nodup
        ∧ (∀ p, p ∈ cells ↔ s.Alive p)
        ∧ Releasing.Reaches s.tree.strongRefs (s.tree.dropRoot cells) final
        ∧ final.step s.tree.strongRefs = none
        ∧ final.freed.Perm cells
        ∧ (final.freed.flatMap s.tree.entries).Perm
            ((List.range s.tree.pages).flatMap s.tree.entries) := by
  classical
  have inv := arranged.ok.inv
  have alive {p : PageId} := System.alive_iff_of_idle (p := p) idle
  have allocated {p : PageId} (path : Relation.ReflTransGen s.tree.Owns s.tree.root p)
      : p < s.tree.pages := by
    induction path with
    | refl => exact inv.root_active.1
    | tail _ last ih => exact arranged.ordered.owned_allocated inv ih last
  let cells := (List.range s.tree.pages).filter (fun p => s.Alive p)
  have member {p : PageId} : p ∈ cells ↔ s.Alive p := by
    rw [List.mem_filter, List.mem_range, decide_eq_true_iff]
    exact and_iff_right_of_imp (fun isAlive => allocated (alive.mp isAlive))
  have nodup : cells.Nodup := List.nodup_range.filter _
  obtain ⟨rank, lower⟩ := arranged.ordered.exists_rank inv
  obtain ⟨final, path, ended, frees⟩
      : ∃ final,
          Releasing.Reaches s.tree.strongRefs (s.tree.dropRoot cells) final
          ∧ final.step s.tree.strongRefs = none
          ∧ final.freed.Perm cells :=
    Releasing.release_frees nodup (member.mpr (alive.mpr .refl))
      (by
        intro p inside q isRef
        exact member.mpr
          (alive.mpr ((alive.mp (member.mp inside)).tail (Tree.mem_strongRefs.mp isRef))))
      (by
        intro p inside notRoot
        cases Relation.ReflTransGen.cases_tail (alive.mp (member.mp inside)) with
        | inl same => exact absurd same notRoot
        | inr last =>
            obtain ⟨owner, path, owns⟩ := last
            exact ⟨owner, member.mpr (alive.mpr path), Tree.mem_strongRefs.mpr owns⟩)
      rank
      (by
        intro p inside q isRef
        exact lower p (allocated (alive.mp (member.mp inside))) q (Tree.mem_strongRefs.mp isRef))
  refine ⟨cells, final, nodup, fun p => member, path, ended, frees, ?_⟩
  refine (frees.flatMap_right s.tree.entries).trans (.of_eq (flatMap_filter ?_))
  intro p inside dead
  cases retired : s.tree.forward p with
  | some target => exact Tree.entries_of_retired retired
  | none =>
      refine absurd (alive.mpr (inv.root_leads ⟨List.mem_range.mp inside, retired⟩)) ?_
      exact of_decide_eq_false dead

/-- In every reachable state strong references form no cycle, counting frees every page that
neither the root slot nor a running call leads to, and dropping the map when no call runs
frees all other pages, once, and with them all records.
-/
theorem ownership_acyclic (reached : (System.transitions ι K V N).Reachable s)
    : (∀ p, p < s.tree.pages → ¬ Relation.TransGen s.tree.Owns p p)
      ∧ (∀ p, p < s.tree.pages → ¬ s.Alive p → Collected s.Holds s.tree.AllocatedOwns p)
      ∧ ((∀ θ, (s.thread θ).status = .idle)
        → ∃ cells final,
            cells.Nodup
            ∧ (∀ p, p ∈ cells ↔ s.Alive p)
            ∧ Releasing.Reaches s.tree.strongRefs (s.tree.dropRoot cells) final
            ∧ final.step s.tree.strongRefs = none
            ∧ final.freed.Perm cells
            ∧ (final.freed.flatMap s.tree.entries).Perm
                ((List.range s.tree.pages).flatMap s.tree.entries)) := by
  obtain ⟨shape, levels, arranged⟩ := reachable_arranged reached
  refine ⟨?_, fun p _ => arranged.collected, arranged.drop_frees⟩
  intro p allocated cycle
  exact Levels.Ahead.irrefl (arranged.ordered.ahead_of_path arranged.ok.inv allocated cycle).1

/-- A leaf is merged into its right neighbour, whose left neighbour no longer leads to it; then
the map is dropped.
-/
theorem ownership_acyclic_merged
    : ∃ (trace : List (Transition (System (Fin 2) Nat Nat) (Label (Fin 2) Nat Nat)))
        (s : System (Fin 2) Nat Nat),
        (System.transitions (Fin 2) Nat Nat .smallest).Run System.fresh trace s
        ∧ s.tree.forward 2 = some 3
        ∧ (∀ p, p < s.tree.pages → ¬ Relation.TransGen s.tree.Owns p p)
        ∧ ∃ cells final,
            Releasing.Reaches s.tree.strongRefs (s.tree.dropRoot cells) final
            ∧ final.freed.Perm cells
            ∧ (final.freed.flatMap s.tree.entries).Perm
                ((List.range s.tree.pages).flatMap s.tree.entries) := by
  have plays : ((System.fresh : System (Fin 2) Nat Nat).replay .smallest [0, 1]
      ([1, 2, 3].flatMap (fun key => Move.whole 0 (.insert key key) 3)
        ++ Move.whole 0 (.insert 4 4) 8 ++ Move.whole 0 (.insert 5 5) 9
        ++ Move.whole 1 (.insert 6 6) 9 ++ Move.whole 0 (.remove (.ofKey 6)) 4
        ++ Move.whole 0 (.remove (.ofKey 5)) 4 ++ Move.whole 1 (.remove (.ofKey 3)) 11)).map
          (fun played => (played.2.tree.forward 2, played.2.isQuiet [0, 1]))
      = some (some 3, true) := by
    decide +kernel
  obtain ⟨⟨trace, s⟩, replayed, checks⟩ := Option.map_eq_some_iff.mp plays
  obtain ⟨retired, quiet⟩ := Prod.mk.injEq _ _ _ _ ▸ checks
  obtain ⟨acyclic, -, frees⟩ :=
    ownership_acyclic (System.reachable_of_replay (by decide) replayed)
  obtain ⟨cells, final, -, -, path, -, all, records⟩ :=
    frees (System.idle_of_isQuiet (by decide) quiet)
  exact ⟨trace, s, System.run_of_replay (by decide) replayed, retired, acyclic, cells, final, path,
    all, records⟩

end BLink
