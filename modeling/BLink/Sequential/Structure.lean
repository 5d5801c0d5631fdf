import BLink.Sequential.Links

/-! The structure of the tree between the calls of a single thread.
Between two calls everything holds that `Tree::validate` checks: no page is left to be
repaired, and no link is left to be corrected.
-/

namespace BLink

open Library

variable {K V : Type} [TotalOrd K]

/-- What `Tree::validate` checks of a tree that no operation is at work on, except that the
root may be an internal page without separators.
-/
structure Tree.Sound (N : Nat) (t : Tree K V) : Prop where
  structured : SearchStructure N t
  root_links : (t.page t.root).previous = none ∧ (t.page t.root).right = none
  separators
    : ∀ p keys children,
        t.Active p → (t.page p).kind = .internal keys children
        → keys.Pairwise (· < ·) ∧ ∀ key ∈ keys, Within (t.low p) (t.high p) key
  chained : ∀ depth, t.Chained none (t.level depth)
  upgrades
    : ∀ p q,
        t.Active p → (t.page p).previous = some q → Relation.ReflTransGen t.Owns t.root q
  count
    : ∃ height,
        (∀ depth, ∀ p ∈ t.level depth, (t.page p).kind.isLeaf ↔ depth = height)
        ∧ t.len = ((t.level height).flatMap t.entries).length

/-- What `Tree::validate` checks of a tree. -/
structure Tree.Valid (N : Nat) (t : Tree K V) : Prop where
  sound : t.Sound N
  separated : ¬ t.BareRoot

variable {N : Nat} {t : Tree K V} {shape : Shape}

/-- The structural invariant and exact links make a tree sound. -/
theorem Inv.sound (inv : Inv N t shape) (exact : Exact t) : t.Sound N where
  structured := inv.searchStructure
  root_links := ⟨exact.first inv.root_active inv.root_low, inv.root_right⟩
  separators := by
    intro p keys children active kind
    obtain ⟨l, member⟩ := (inv.active_iff p).mp active
    obtain ⟨sorted, inside⟩ := (inv.content_internal member kind).keys_sorted
    refine ⟨sorted, fun key isKey => ⟨?_, ?_⟩⟩
    · exact fun lowest isLow => le_of_lt ((inside key isKey).1 lowest isLow key rfl)
    · exact fun bound isHigh => (inside key isKey).2 key rfl bound isHigh
  chained := inv.chained exact
  upgrades := fun _ _ active back => inv.root_leads_back exact active back
  count := by
    refine ⟨shape.height, fun depth p member => ?_, ?_⟩
    · obtain ⟨le, inRow⟩ := inv.mem_level.mp member
      rw [(inv.page _ p inRow).leaf_iff]
      omega
    · rw [inv.level_eq (Nat.le_refl _), Nat.sub_self]
      exact inv.count

-----------------------------------------------------------------------------------------
-- Runs of a single thread
-----------------------------------------------------------------------------------------

/-- The links of the tree are exact up to the prompt repair of the only call. -/
def Status.Tidy (t : Tree K V) : Status K V → Prop
  | .idle => Exact t
  | .running _ pc => ExactBut t pc ∧ pc.Prompt t

/-- The state of a map that a single thread uses. -/
structure Tidy (N : PageCapacity) (s : System Unit K V) (shape : Shape) : Prop where
  ok : SystemOk N s shape
  tidy : (s.thread ()).status.Tidy s.tree

variable {N : PageCapacity} {s s' : System Unit K V}

theorem Call.begin_merges (call : Call K V) (cursors : Nat → Cursor K)
    : (call.begin cursors).2.merges = none := by
  cases call with
  | next cursor =>
      rw [Call.begin]
      split
      · rfl
      · rename_i seek _
        cases seek <;> rfl
  | _ => rfl

/-- What is in use is alive. -/
theorem SystemOk.alive {ι : Type} {s : System ι K V} (ok : SystemOk N s shape) {p : PageId}
    (active : s.tree.Active p)
    : s.Alive p := by
  obtain ⟨depth, member⟩ := ok.inv.active_iff_level.mp active
  exact ⟨s.tree.root, .inl rfl, Tree.owns_of_mem_level member⟩

/-- Every step leads from a tidy state to a tidy state. -/
theorem Tidy.step {label : Label Unit K V} (tidy : Tidy N s shape)
    (step : (System.transitions Unit K V N).step s label s')
    : ∃ shape', Tidy N s' shape' := by
  have ok := tidy.ok
  have before := tidy.tidy
  cases label with
  | invoke θ call =>
      cases step with
      | invoke idle =>
          rw [idle] at before
          exact ⟨shape, ok.invoke idle call, before.but _, Pc.prompt_of_merges (call.begin_merges _)⟩
  | respond θ call response =>
      cases step with
      | respond done =>
          rw [done] at before
          exact ⟨shape, ok.respond done, before.1.exact (Pc.not_repairs rfl rfl)⟩
  | pass θ latched upgraded =>
      obtain ⟨call, pc, t', pc', passed⟩ := ok.section_step step
      rw [passed.running] at before
      obtain ⟨chains, prompt⟩ := before
      obtain ⟨shape', advance, -⟩ := passed.preserved ok
      have pcOk := (ok.thread θ).pc call pc passed.running
      have after := passed.effect.chains ok.inv N.three_le chains (by
        intro key repair target held isClear active
        rw [isClear] at prompt
        exact prompt)
      have prompt' := passed.effect.prompt ok.inv pcOk chains prompt
        (fun page isWeak active => passed.weak page isWeak (ok.alive active))
      obtain ⟨pc'', status, -, goes⟩ := (s.thread θ).resume_running call pc'
      refine ⟨shape', passed.systemOk ok advance, ?_⟩
      have here : (s'.thread ()).status = .running call pc'' := by
        rw [passed.target, ← status]
        exact congrArg Thread.status (System.setThread_same s () _)
      have tree : s'.tree = t' := by rw [passed.target]
      rw [here, tree]
      cases goes with
      | inl same => exact same ▸ ⟨after, prompt'⟩
      | inr done =>
          obtain ⟨settled, response, isDone⟩ := done
          have quiet : ¬ pc'.Repairs := by
            intro repairs
            rw [repairs.unsettled] at settled
            cases settled
          rw [isDone]
          exact ⟨(ExactBut.exact after quiet).but _, trivial⟩

/-- Every state that a single thread reaches is tidy. -/
theorem reachable_tidy (reached : (System.transitions Unit K V N).Reachable s)
    : ∃ shape, Tidy N s shape := by
  refine reached.invariant (I := fun s => ∃ shape, Tidy N s shape) ?_ ?_
  · intro s initial
    refine ⟨Shape.single, initial.ok, ?_⟩
    rw [initial.idle, initial.tree]
    exact ⟨nofun, fun _ _ _ => .inl rfl⟩
  · intro s label s' _ tidy step
    obtain ⟨shape, tidy⟩ := tidy
    exact tidy.step step

/-- A tidy state between two calls is valid, if the root is not bare. -/
theorem Tidy.valid (tidy : Tidy N s shape) (idle : (s.thread ()).status = .idle)
    (separated : ¬ s.tree.BareRoot)
    : s.tree.Valid N.size := by
  have exact := tidy.tidy
  rw [idle] at exact
  exact ⟨tidy.ok.inv.sound exact, separated⟩

/-- After every call of a single thread the tree is valid. -/
theorem single_thread_valid (reached : (System.transitions Unit K V N).Reachable s)
    (idle : (s.thread ()).status = .idle)
    : s.tree.Valid N.size := by
  obtain ⟨shape, tidy⟩ := reachable_tidy reached
  apply tidy.valid idle
  intro bare
  obtain ⟨θ, key, pc, running⟩ := (search_structure_reachable reached).2 bare
  rw [idle] at running
  cases running

/-- Removals that merge leaves. -/
theorem single_thread_valid_merged
    : ∃ (finish : System Unit Nat Nat), finish.tree.level 1 = [0, 3, 4] ∧ finish.tree.Valid 3 := by
  have plays : ((System.fresh : System Unit Nat Nat).replay .smallest [()]
      ([1, 2, 3].flatMap (fun key => Move.whole () (.insert key key) 3)
        ++ Move.whole () (.insert 4 4) 8 ++ Move.whole () (.insert 5 5) 9
        ++ Move.whole () (.insert 6 6) 9 ++ Move.whole () (.remove (.ofKey 6)) 4
        ++ Move.whole () (.remove (.ofKey 5)) 4
        ++ Move.whole () (.remove (.ofKey 3)) 11)).map (fun played =>
          (played.2.tree.level 1, played.2.isQuiet [()]))
      = some ([0, 3, 4], true) := by
    decide +kernel
  obtain ⟨⟨trace, finish⟩, replayed, checks⟩ := Option.map_eq_some_iff.mp plays
  simp only [Prod.mk.injEq] at checks
  obtain ⟨level, quiet⟩ := checks
  exact ⟨finish, level,
    single_thread_valid
      (System.reachable_of_replay (fun _ => List.mem_cons_self) replayed)
      (System.idle_of_isQuiet (fun _ => List.mem_cons_self) quiet ())⟩

end BLink
