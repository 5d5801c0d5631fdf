import BLink.Runs.SearchStructure
import BLink.Sections.Chain

/-! The sibling chains of a tree that no running call still has to repair.
A deferred repair makes the links that a split or merge left behind exact, unless the repair
after a merge clears the back link of a survivor that has a left neighbour.
-/

namespace BLink

open Library

variable {ι K V : Type}

-----------------------------------------------------------------------------------------
-- Exact chains
-----------------------------------------------------------------------------------------

/-- The pages are linked with each other in their order: each right link is the next page,
each back link the page before, and the first page's back link is `previous`.
-/
def Tree.Chained (t : Tree K V) : Option PageId → List PageId → Prop
  | _, [] => True
  | previous, p :: rest =>
      (t.page p).previous = previous
      ∧ (t.page p).right = rest.head?
      ∧ t.Chained (some p) rest

/-- Decided page by page. -/
def Tree.decidableChained (t : Tree K V)
    : (previous : Option PageId) → (pages : List PageId) → Decidable (t.Chained previous pages)
  | _, [] => isTrue trivial
  | _, p :: rest =>
      have := t.decidableChained (some p) rest
      inferInstanceAs (Decidable (_ ∧ _ ∧ t.Chained (some p) rest))

instance (t : Tree K V) (previous : Option PageId) (pages : List PageId)
    : Decidable (t.Chained previous pages) := t.decidableChained previous pages

/-- In a chain, every back link names a page of the chain, or the page before it. -/
theorem Tree.Chained.previous_mem {t : Tree K V} {previous : Option PageId} {pages : List PageId}
    {p q : PageId} (chained : t.Chained previous pages) (member : p ∈ pages)
    (back : (t.page p).previous = some q)
    : previous = some q ∨ q ∈ pages := by
  induction pages generalizing previous with
  | nil => cases member
  | cons first rest ih =>
      obtain ⟨here, -, later⟩ := chained
      rcases List.mem_cons.mp member with rfl | member
      · exact .inl (here.symm.trans back)
      · rcases ih later member with same | inside
        · obtain rfl := Option.some.inj same
          exact .inr List.mem_cons_self
        · exact .inr (List.mem_cons_of_mem first inside)

/-- Pages by child pointers are reached by strong references. -/
theorem Tree.owns_of_mem_level {t : Tree K V} {depth : Nat} {p : PageId}
    (member : p ∈ t.level depth)
    : Relation.ReflTransGen t.Owns t.root p := by
  induction depth generalizing p with
  | zero =>
      obtain rfl := List.mem_singleton.mp member
      exact .refl
  | succ depth ih =>
      obtain ⟨parent, above, inside⟩ := List.mem_flatMap.mp member
      refine (ih above).tail (.inr ?_)
      cases kind : (t.page parent).kind <;> simp_all [Tree.children, NodeKind.children]

variable [TotalOrd K]

/-- All sibling chains are exact: at each depth the pages, which tile the key space in order,
are linked with their neighbours, and back links upgrade.
-/
structure ExactChains (N : Nat) (s : System ι K V) : Prop where
  structured : SearchStructure N s.tree
  chained : ∀ depth, s.tree.Chained none (s.tree.level depth)
  upgrades : ∀ p q, s.tree.Active p → (s.tree.page p).previous = some q → s.Alive q

section

variable {N : Nat} {t : Tree K V} {shape : Shape} {waiting waiting' : Pc K V → Prop}

/-- The operation still has to repair links. -/
def Pc.Repairs (pc : Pc K V) : Prop := pc.merges ≠ none ∨ pc.splits ≠ none

theorem Pc.Repairs.unsettled {pc : Pc K V} (repairs : pc.Repairs) : pc.isSettled = false := by
  cases pc with
  | candidate | done | panicked => exact repairs.elim (absurd rfl) (absurd rfl)
  | _ => rfl

theorem Thread.resume_of_repairs (thread : Thread K V) (call : Call K V) {pc : Pc K V}
    (repairs : pc.Repairs)
    : (thread.resume call pc).status = .running call pc := by
  cases pc with
  | candidate => cases repairs.unsettled
  | _ => rfl

/-- What matters of the waiting operations is which repairs they still have to make. -/
theorem Chains.mono (chains : Chains t waiting)
    (keeps : ∀ pc, waiting pc → pc.Repairs → waiting' pc)
    : Chains t waiting' := by
  have merging {b : PageId} : Merging waiting b → Merging waiting' b := by
    rintro ⟨pc, waits, merges⟩
    exact ⟨pc, keeps pc waits (.inl (by rw [merges]; exact nofun)), merges⟩
  have splitting {a next : PageId} : Splitting waiting a next → Splitting waiting' a next := by
    rintro ⟨pc, waits, splits⟩
    exact ⟨pc, keeps pc waits (.inr (by rw [splits]; exact nofun)), splits⟩
  constructor
  · intro a next b active points resolves
    obtain ⟨right, back⟩ := chains.joined a next b active points resolves
    exact ⟨right.imp id merging, back.imp id (Or.imp splitting merging)⟩
  · exact fun a active low => (chains.first a active low).imp id merging

/-- All neighbours are joined by right links and back links. -/
def Exact (t : Tree K V) : Prop := Chains t (fun _ => False)

/-- Without pending repairs all links are exact. -/
theorem Chains.exact (chains : Chains t waiting) (quiet : ∀ pc, waiting pc → ¬ pc.Repairs)
    : Exact t :=
  chains.mono quiet

/-- No operation is there to repair anything. -/
theorem not_merging {b : PageId} : ¬ Merging (fun _ : Pc K V => False) b :=
  fun merging => merging.elim (fun _ none => none.1)

theorem not_splitting {a next : PageId} : ¬ Splitting (fun _ : Pc K V => False) a next :=
  fun splitting => splitting.elim (fun _ none => none.1)

/-- Exact links name the neighbours themselves. -/
theorem Exact.joined {a next b : PageId} (exact : Exact t) (active : t.Active a)
    (points : (t.page a).right = some next) (resolves : Resolves t.forward next b)
    : next = b ∧ (t.page b).previous = some a := by
  obtain ⟨right, back⟩ := Chains.joined exact a next b active points resolves
  exact ⟨right.resolve_right not_merging,
    back.resolve_right (fun pending => pending.elim not_splitting not_merging)⟩

/-- With exact links the first page of a level has no predecessor. -/
theorem Exact.first {p : PageId} (exact : Exact t) (active : t.Active p) (low : t.low p = none)
    : (t.page p).previous = none :=
  (Chains.first exact p active low).resolve_right not_merging

/-- A linked row with exact links is chained. -/
theorem Exact.chained {row : List PageId} {previous : Option PageId} (exact : Exact t)
    (linked : Linked t.LeadsTo row none) (active : ∀ p ∈ row, t.Active p)
    (first : ∀ p ∈ row.head?, (t.page p).previous = previous)
    : t.Chained previous row := by
  induction row generalizing previous with
  | nil => trivial
  | cons p rest ih =>
      obtain ⟨leads, linked⟩ := linked
      have here := active p List.mem_cons_self
      have later : ∀ q ∈ rest, t.Active q := fun q member => active q (List.mem_cons_of_mem p member)
      cases rest with
      | nil => exact ⟨first p rfl, leads, trivial⟩
      | cons q rest =>
          obtain ⟨next, points, resolves⟩ := leads
          obtain ⟨same, previous⟩ := exact.joined here points resolves
          refine ⟨first p rfl, same ▸ points, ih linked later ?_⟩
          intro first isFirst
          cases isFirst
          exact previous

/-- With exact links every level is chained. -/
theorem Inv.chained (inv : Inv N t shape) (exact : Exact t) (depth : Nat)
    : t.Chained none (t.level depth) := by
  by_cases le : depth ≤ shape.height
  · rw [inv.level_eq le]
    apply exact.chained (inv.linked _) (fun p member => inv.active member)
    intro p isFirst
    have member := List.mem_of_head? isFirst
    apply exact.first (inv.active member)
    obtain ⟨_, tiles⟩ := inv.tiles (inv.le_height member)
    obtain ⟨rest, row⟩ := List.head?_eq_some_iff.mp isFirst
    rw [row] at tiles
    exact tiles.head_lower
  · rw [inv.level_beyond (Nat.lt_of_not_le le)]
    trivial

/-- With exact links every back link names a page that the root leads to. -/
theorem Inv.root_leads_back (inv : Inv N t shape) (exact : Exact t) {p q : PageId}
    (active : t.Active p) (back : (t.page p).previous = some q)
    : Relation.ReflTransGen t.Owns t.root q := by
  obtain ⟨depth, member⟩ := inv.active_iff_level.mp active
  exact Tree.owns_of_mem_level
    (((inv.chained exact depth).previous_mem member back).resolve_left nofun)

end

variable [DecidableEq ι] {N : PageCapacity} {s s' : System ι K V} {shape : Shape} {θ : ι}

/-- Some thread is at the given place of a running call. -/
def System.Waiting (s : System ι K V) (pc : Pc K V) : Prop :=
  ∃ θ call, (s.thread θ).status = .running call pc

/-- Some thread other than `θ` is at the given place of a running call. -/
def System.WaitingBeside (s : System ι K V) (θ : ι) (pc : Pc K V) : Prop :=
  ∃ other, other ≠ θ ∧ ∃ call, (s.thread other).status = .running call pc

omit [DecidableEq ι] in
/-- When no repairs are pending, all sibling chains are exact. -/
theorem SystemOk.exactChains (ok : SystemOk N s shape) (chains : Chains s.tree s.Waiting)
    (quiet : ∀ pc, s.Waiting pc → ¬ pc.Repairs)
    : ExactChains N.size s where
  structured := ok.inv.searchStructure
  chained := ok.inv.chained (chains.exact quiet)
  upgrades := fun _ _ active back =>
    ⟨s.tree.root, .inl rfl, ok.inv.root_leads_back (chains.exact quiet) active back⟩

/-- The step takes the exit of `repair_merged_link` that leaves the survivor without a
predecessor, although the survivor is active and does not begin its level.
-/
def ClearsBackLink (transition : Transition (System ι K V) (Label ι K V)) : Prop :=
  ∃ θ latched upgraded call key repair target held,
    transition.label = .pass θ latched upgraded
    ∧ (transition.source.thread θ).status = .running call (.mergeClear key repair target held)
    ∧ transition.source.tree.Active repair.survivor
    ∧ transition.source.tree.low repair.survivor ≠ none

omit [DecidableEq ι] in
theorem System.waiting_iff (s : System ι K V) {call : Call K V} {pc waiting : Pc K V}
    (running : (s.thread θ).status = .running call pc)
    : s.Waiting waiting ↔ Beside (s.WaitingBeside θ) pc waiting := by
  constructor
  · rintro ⟨other, call', running'⟩
    by_cases here : other = θ
    · rw [here, running] at running'
      cases running'
      exact .inr rfl
    · exact .inl ⟨other, here, call', running'⟩
  · rintro (⟨other, -, call', running'⟩ | rfl)
    · exact ⟨other, call', running'⟩
    · exact ⟨θ, call, running⟩

/-- Whatever another thread waits for, it waits for after a thread's step. -/
theorem System.Waiting.of_beside (thread : Thread K V) {pc : Pc K V}
    (waiting : s.WaitingBeside θ pc)
    : (s.setThread θ thread).Waiting pc := by
  obtain ⟨other, differs, call, running⟩ := waiting
  exact ⟨other, call, by rw [System.setThread_other s thread differs]; exact running⟩

/-- Every step keeps the chains, up to pending repairs, unless it clears a back link. -/
theorem Chains.step {label : Label ι K V} (chains : Chains s.tree s.Waiting)
    (ok : SystemOk N s shape) (step : (System.transitions ι K V N).step s label s')
    (keeps : ¬ ClearsBackLink ⟨s, label, s'⟩)
    : Chains s'.tree s'.Waiting := by
  cases label with
  | invoke θ call =>
      cases step with
      | invoke idle =>
          refine chains.mono (fun pc ⟨other, call', running⟩ _ => ?_)
          refine .of_beside _ ⟨other, ?_, call', running⟩
          rintro rfl
          rw [idle] at running
          cases running
  | respond θ call response =>
      cases step with
      | respond done =>
          refine chains.mono (fun pc ⟨other, call', running⟩ repairs =>
            .of_beside _ ⟨other, ?_, call', running⟩)
          rintro rfl
          rw [done] at running
          cases running
          cases repairs.unsettled
  | pass θ latched upgraded =>
      obtain ⟨call, pc, t', pc', passed⟩ := ok.section_step step
      have before : Chains s.tree (Beside (s.WaitingBeside θ) pc) :=
        chains.mono (fun waiting waits _ => (s.waiting_iff passed.running).mp waits)
      have after := passed.effect.chains ok.inv N.three_le before (by
        rintro key repair target held rfl active
        by_contra finite
        exact keeps ⟨θ, latched, upgraded, call, key, repair, target, held, rfl, passed.running,
          active, finite⟩)
      rw [passed.target]
      refine after.mono ?_
      rintro waiting (beside | rfl) repairs
      · exact System.Waiting.of_beside ((s.thread θ).resume call pc') beside
      · refine ⟨θ, call, ?_⟩
        show ((s.setThread θ _).thread θ).status = _
        rw [System.setThread_same]
        exact (s.thread θ).resume_of_repairs call repairs

variable {start finish : System ι K V}
  {trace : List (Transition (System ι K V) (Label ι K V))}

/-- Along a run in which no step clears a back link, repairs are pending wherever neighbours
are not joined.
-/
theorem chains_of_run (initial : (System.transitions ι K V N).init start)
    (run : (System.transitions ι K V N).Run start trace finish)
    (keeps : ∀ transition ∈ trace, ¬ ClearsBackLink transition)
    : Chains finish.tree finish.Waiting := by
  refine run.induct (I := fun trace s =>
    (∀ transition ∈ trace, ¬ ClearsBackLink transition) → Chains s.tree s.Waiting) ?_ ?_ keeps
  · intro _
    have tree : start.tree = Tree.empty := System.Initial.tree initial
    rw [tree]
    exact ⟨nofun, fun _ _ _ => .inl rfl⟩
  · intro trace s label s' earlier before step keeps
    obtain ⟨shape, ok⟩ := reachable_ok ⟨start, trace, initial, earlier⟩
    refine (before (fun transition member => keeps transition (List.mem_append_left _ member))).step
      ok step (keeps _ (by simp))

/-- When all calls have returned, all sibling chains are exact, if no step has cleared the
back link of a survivor that has a left neighbour.
-/
theorem sibling_chains_exact_when (initial : (System.transitions ι K V N).init start)
    (run : (System.transitions ι K V N).Run start trace finish)
    (keeps : ∀ transition ∈ trace, ¬ ClearsBackLink transition)
    (idle : ∀ θ, (finish.thread θ).status = .idle)
    : ExactChains N.size finish := by
  obtain ⟨shape, ok⟩ := reachable_ok ⟨start, trace, initial, run⟩
  refine ok.exactChains (chains_of_run initial run keeps) ?_
  rintro pc ⟨θ, call, running⟩
  rw [idle] at running
  cases running

-----------------------------------------------------------------------------------------
-- A back link that is lost
-----------------------------------------------------------------------------------------

/-- The step does not clear the back link of an active page with a lower fence. -/
def keepsBackLink (transition : Transition (System ι K V) (Label ι K V)) : Bool :=
  match transition.label with
  | .pass θ _ _ =>
      match (transition.source.thread θ).status with
      | .running _ (.mergeClear _ repair _ _) =>
          transition.source.tree.forward repair.survivor ≠ none
            || transition.source.tree.low repair.survivor = none
      | _ => true
  | _ => true

omit [DecidableEq ι] in
theorem not_clearsBackLink_of_all (all : trace.all keepsBackLink = true)
    : ∀ transition ∈ trace, ¬ ClearsBackLink transition := by
  rintro transition member ⟨θ, _, _, _, _, repair, _, _, isPass, running, active, finite⟩
  have keeps := List.all_eq_true.mp all transition member
  simp only [keepsBackLink, isPass, running, active.2, finite, ne_eq, not_true_eq_false,
    decide_false, Bool.or_self, Bool.false_eq_true] at keeps

/-- All threads of the list are idle. -/
def System.isQuiet (s : System ι K V) (threads : List ι) : Bool :=
  threads.all (fun θ =>
    match (s.thread θ).status with
    | .idle => true
    | .running _ _ => false)

omit [DecidableEq ι] in
theorem System.idle_of_isQuiet {threads : List ι} (all : ∀ θ, θ ∈ threads)
    (quiet : s.isQuiet threads = true) (θ : ι)
    : (s.thread θ).status = .idle := by
  have here := List.all_eq_true.mp quiet θ (all θ)
  split at here
  · assumption
  · cases here

/-- Removals that merge leaves, while another thread reads. -/
theorem sibling_chains_exact_when_merged
    : ∃ (finish : System (Fin 2) Nat Nat),
        finish.tree.level 1 = [0, 3, 4] ∧ ExactChains 3 finish := by
  have plays : ((System.fresh : System (Fin 2) Nat Nat).replay .smallest [0, 1]
      ([1, 2, 3].flatMap (fun key => Move.whole 0 (.insert key key) 3)
        ++ Move.whole 0 (.insert 4 4) 8 ++ Move.whole 0 (.insert 5 5) 9
        ++ Move.whole 0 (.insert 6 6) 9 ++ Move.whole 0 (.remove (.ofKey 6)) 4
        ++ Move.whole 0 (.remove (.ofKey 5)) 4 ++ Move.whole 0 (.remove (.ofKey 3)) 11
        ++ Move.whole 1 (.get (.ofKey 4)) 3)).map (fun played =>
          (
            played.2.tree.level 1,
            played.2.isQuiet [0, 1] && played.1.all keepsBackLink
          ))
      = some ([0, 3, 4], true) := by
    decide +kernel
  obtain ⟨⟨trace, finish⟩, replayed, checks⟩ := Option.map_eq_some_iff.mp plays
  obtain ⟨level, checks⟩ := Prod.mk.injEq _ _ _ _ ▸ checks
  obtain ⟨quiet, keeps⟩ := Bool.and_eq_true_iff.mp checks
  exact ⟨finish, level,
    sibling_chains_exact_when (System.fresh_init _) (System.run_of_replay (by decide) replayed)
      (not_clearsBackLink_of_all keeps) (System.idle_of_isQuiet (by decide) quiet)⟩

/-- The predecessor that a merge has captured is merged away and freed before the merge's
repair upgrades it: the survivor loses its back link although it has a left neighbour.
-/
theorem sibling_chains_not_exact
    : ∃ (trace : List (Transition (System (Fin 2) Nat Nat) (Label (Fin 2) Nat Nat)))
        (finish : System (Fin 2) Nat Nat),
        (System.transitions (Fin 2) Nat Nat .smallest).Run System.fresh trace finish
        ∧ (∀ θ, (finish.thread θ).status = .idle)
        ∧ finish.tree.level 1 = [0, 4]
        ∧ (finish.tree.page 0).right = some 4
        ∧ (finish.tree.page 4).previous = none
        ∧ ¬ ExactChains 3 finish := by
  have plays : ((System.fresh : System (Fin 2) Nat Nat).replay .smallest [0, 1]
      ([1, 2, 3].flatMap (fun key => Move.whole 0 (.insert key key) 3)
        ++ Move.whole 0 (.insert 4 4) 8 ++ Move.whole 0 (.insert 5 5) 9
        ++ Move.whole 0 (.insert 6 6) 9 ++ Move.whole 0 (.remove (.ofKey 6)) 4
        ++ Move.whole 0 (.remove (.ofKey 5)) 4
        ++ .invoke 1 (.remove (.ofKey 4)) :: List.replicate 7 (.pass 1)
        ++ Move.whole 0 (.remove (.ofKey 3)) 4 ++ Move.whole 0 (.remove (.ofKey 4)) 11
        ++ Move.whole 0 (.insert 4 4) 4
        ++ List.replicate 4 (.pass 1) ++ [.respond 1])).map (fun played =>
          (
            played.2.isQuiet [0, 1],
            played.2.tree.level 1,
            (played.2.tree.page 0).right,
            (played.2.tree.page 4).previous
          ))
      = some (true, [0, 4], some 4, none) := by
    decide +kernel
  obtain ⟨⟨trace, finish⟩, replayed, checks⟩ := Option.map_eq_some_iff.mp plays
  simp only [Prod.mk.injEq] at checks
  obtain ⟨quiet, level, right, previous⟩ := checks
  refine ⟨trace, finish, System.run_of_replay (by decide) replayed,
    System.idle_of_isQuiet (by decide) quiet, level, right, previous, ?_⟩
  intro exact
  have chained := exact.chained 1
  rw [level] at chained
  obtain ⟨-, -, back, -⟩ := chained
  rw [previous] at back
  cases back

end BLink
