import BLink.Sequential.Structure

/-! Structural passes over a tree that no other operation is at work on.
A pass that is abandoned half-way leaves the same records in a tree that is sound again.
-/

namespace BLink

open Library

variable {K V : Type} [TotalOrd K]

variable {N : Nat} {t t' : Tree K V} {shape : Shape} {pc pc' : Pc K V} {call : Call K V}
  {map : SortedMap K V}

/-- The quiescent structural invariant: no operation is at work on the tree. -/
structure Quiescent (N : Nat) (t : Tree K V) (shape : Shape) : Prop where
  inv : Inv N t shape
  exact : Exact t
  separated : ¬ t.BareRoot

theorem Quiescent.valid (quiescent : Quiescent N t shape) : t.Valid N :=
  ⟨quiescent.inv.sound quiescent.exact, quiescent.separated⟩

/-- Where a pass of the call begins: before `split_root_if_full` or `shrink_root`, or after it.
-/
def Call.PassBegins : Call K V → Pc K V → Prop
  | .insert key value, pc => pc = .splitRootIfFull key value ∨ pc = .insertRoot key value
  | .remove key, pc => pc = .shrinkRoot key none ∨ pc = .removeRoot key
  | _, _ => False

/-- Where a call goes on after `Retry`. -/
def Call.restart : Call K V → Option (Pc K V)
  | .insert key value => some (.splitRootIfFull key value)
  | .remove key => some (.shrinkRoot key none)
  | _ => none

/-- The pass has returned `Retry`, so that the next one is to begin. -/
def Pc.isAbandoned : Pc K V → Bool
  | .splitRootIfFull _ _ | .shrinkRoot _ none => true
  | _ => false

/-- One section after another of a single operation. Any `try_write` attempt may fail; a weak
pointer to a page that is in use upgrades.
-/
inductive Attempts (N : Nat) (t : Tree K V) (pc : Pc K V) : Tree K V → Pc K V → Prop
  | begin : Attempts N t pc t pc
  | pass {t₁ pc₁ t₂ pc₂} (earlier : Attempts N t pc t₁ pc₁) (unsettled : pc₁.isSettled = false)
    (latched upgraded : Bool)
    (weak : ∀ page, pc₁.upgrades t₁ = some page → t₁.Active page → upgraded = true)
    (result : t₁.latchedSection N latched upgraded pc₁ = .ok (t₂, pc₂))
    : Attempts N t pc t₂ pc₂

/-- What a writer's call on the map has come to: nothing yet, or its result and effect. -/
inductive Progress (call : Call K V) (map : SortedMap K V) (t : Tree K V) (shape : Shape)
    (pc : Pc K V)
    : Prop
  | pending (serves : pc.serves = some call) (undecided : pc.result = none)
    (rep : Represents t shape map)
  | decided {response map'} (rest : ∀ next ∈ pc.serves, next = call)
    (result : pc.result = some response) (rep : Represents t shape map')
    (applies : Applies call map response map')

/-- In the middle of a pass. -/
structure MidPass (N : Nat) (call : Call K V) (map : SortedMap K V) (t : Tree K V)
    (shape : Shape) (pc : Pc K V)
    : Prop where
  inv : Inv N t shape
  ok : PcOk t shape pc
  chains : ExactBut t pc
  prompt : pc.Prompt t
  progress : Progress call map t shape pc

theorem MidPass.begin (quiescent : Quiescent N t shape) (rep : Represents t shape map)
    (begins : call.PassBegins pc)
    : MidPass N call map t shape pc := by
  cases call with
  | insert =>
      cases begins with
      | inl same | inr same =>
          subst same
          exact ⟨quiescent.inv, trivial, quiescent.exact.but _, trivial, .pending rfl rfl rep⟩
  | remove =>
      cases begins with
      | inl same | inr same =>
          subst same
          exact ⟨quiescent.inv, trivial, quiescent.exact.but _, trivial, .pending rfl rfl rep⟩
  | _ => exact begins.elim

/-- An operation that has no result yet serves its call. -/
theorem PcOk.exists_serves (ok : PcOk t shape pc) (undecided : pc.result = none)
    : ∃ call, pc.serves = some call := by
  cases pc with
  | done => cases undecided
  | panicked => exact ok.elim
  | _ => exact ⟨_, rfl⟩

theorem Progress.step {shape' : Shape} (progress : Progress call map t shape pc)
    (writer : call.restart ≠ none) (ok' : PcOk t' shape' pc')
    (outcomes
      : ∀ map,
          Represents t shape map
          → ∃ map', Represents t' shape' map' ∧ Outcome map pc map' pc')
    : Progress call map t' shape' pc' := by
  cases progress with
  | pending serves undecided rep =>
      obtain ⟨map', rep', outcome⟩ := outcomes map rep
      cases outcome with
      | silent same serves' =>
          obtain ⟨call', isCall⟩ := ok'.exists_serves (same.trans undecided)
          have kept := (serves' call' isCall).symm.trans serves
          exact .pending (isCall.trans kept) (same.trans undecided) rep'
      | point serves' _ after rest applies =>
          obtain rfl := Option.some.inj (serves.symm.trans serves')
          exact .decided rest after rep' applies
      | last at' =>
          rw [at'] at serves
          cases serves
          exact absurd rfl writer
  | decided rest result rep applies =>
      obtain ⟨map', rep', outcome⟩ := outcomes _ rep
      cases outcome with
      | silent same serves' =>
          refine .decided (fun next isNext => ?_) (same.trans result) rep' applies
          exact rest next (serves' next isNext)
      | point _ before =>
          rw [result] at before
          cases before
      | last at' =>
          rw [at'] at result
          cases result

/-- Every section leaves the operation in the middle of its pass, whatever fails. -/
theorem MidPass.step {latched upgraded : Bool} (mid : MidPass N call map t shape pc)
    (three : 3 ≤ N) (writer : call.restart ≠ none) (unsettled : pc.isSettled = false)
    (weak : ∀ page, pc.upgrades t = some page → t.Active page → upgraded = true)
    (result : t.latchedSection N latched upgraded pc = .ok (t', pc'))
    : ∃ shape', MidPass N call map t' shape' pc' := by
  obtain ⟨t₁, pc₁, result₁, effect⟩ := section_ok mid.inv three latched upgraded mid.ok unsettled
  rw [result₁] at result
  cases result
  obtain ⟨shape', advance, outcomes⟩ := effect.preserved mid.inv three mid.ok
  refine ⟨shape', advance.inv, advance.ok, ?_, ?_, ?_⟩
  · refine effect.chains mid.inv three mid.chains ?_
    intro key repair target held isClear active
    have prompt := mid.prompt
    rw [isClear] at prompt
    exact prompt
  · exact effect.prompt mid.inv mid.ok mid.chains mid.prompt weak
  · exact mid.progress.step writer advance.ok outcomes

/-- Whatever fails, the operation stays in the middle of its pass, by induction on it. -/
theorem Attempts.midPass (attempts : Attempts N t pc t' pc') (three : 3 ≤ N)
    (writer : call.restart ≠ none) (mid : MidPass N call map t shape pc)
    : ∃ shape', MidPass N call map t' shape' pc' := by
  induction attempts with
  | begin => exact ⟨shape, mid⟩
  | pass earlier unsettled latched upgraded weak result ih =>
      obtain ⟨shape', mid'⟩ := ih
      exact mid'.step three writer unsettled weak result

theorem Call.PassBegins.writer (begins : call.PassBegins pc) : call.restart ≠ none := by
  cases call with
  | insert | remove => exact nofun
  | _ => exact begins.elim

/-- An abandoned operation is where its call begins again, with the same key and value. -/
theorem restart_of_abandoned (serves : pc.serves = some call) (abandoned : pc.isAbandoned = true)
    : call.restart = some pc := by
  cases pc with
  | splitRootIfFull => cases serves; rfl
  | shrinkRoot key result =>
      cases result with
      | none => cases serves; rfl
      | some => cases abandoned
  | _ => cases abandoned

theorem Pc.quiet_of_abandoned (abandoned : pc.isAbandoned = true)
    : pc.result = none ∧ ¬ pc.Repairs := by
  cases pc with
  | splitRootIfFull => exact ⟨rfl, Pc.not_repairs rfl rfl⟩
  | shrinkRoot key result =>
      cases result with
      | none => exact ⟨rfl, Pc.not_repairs rfl rfl⟩
      | some => cases abandoned
  | _ => cases abandoned

/-- From a quiescent tree, with any choice of the `try_write` attempts that fail: a pass that
returns `Retry` leaves exactly the same records and the same counter, and a tree that is sound
again; it goes on with the same key and value. Once there is a result, the call has had its
effect on the map, exactly once.
-/
theorem pass_all_or_nothing (three : 3 ≤ N) (quiescent : Quiescent N t shape)
    (rep : Represents t shape map) (begins : call.PassBegins pc)
    (attempts : Attempts N t pc t' pc')
    : (pc'.isAbandoned = true
        → call.restart = some pc'
          ∧ t'.len = t.len
          ∧ ∃ shape', Inv N t' shape' ∧ Represents t' shape' map ∧ t'.Sound N)
      ∧ ∀ response,
          pc'.result = some response
          → ∃ shape' map',
              Inv N t' shape'
              ∧ Represents t' shape' map'
              ∧ Applies call map response map'
              ∧ t'.len = map'.size := by
  obtain ⟨shape', mid⟩ := attempts.midPass three begins.writer (.begin quiescent rep begins)
  have counts {t : Tree K V} {shape : Shape} {map : SortedMap K V} (inv : Inv N t shape)
      (rep : Represents t shape map) : t.len = map.size := by
    rw [inv.count, SortedMap.size, rep, List.length_map]
  constructor
  · intro abandoned
    obtain ⟨undecided, quiet⟩ := Pc.quiet_of_abandoned abandoned
    cases mid.progress with
    | decided rest result =>
        rw [undecided] at result
        cases result
    | pending serves _ rep' =>
        have exact := ExactBut.exact mid.chains quiet
        exact ⟨restart_of_abandoned serves abandoned,
          (counts mid.inv rep').trans (counts quiescent.inv rep).symm, shape', mid.inv, rep',
          mid.inv.sound exact⟩
  · intro response result
    cases mid.progress with
    | pending _ undecided =>
        rw [undecided] at result
        cases result
    | decided _ result' rep' applies =>
        obtain rfl := Option.some.inj (result'.symm.trans result)
        exact ⟨shape', _, mid.inv, rep', applies, counts mid.inv rep'⟩

/-- Plays the sections of an operation, with `try_write` attempts that succeed as given. -/
def Tree.play (N : Nat) : List Bool → Tree K V → Pc K V → Option (Tree K V × Pc K V)
  | [], t, pc => some (t, pc)
  | latched :: rest, t, pc =>
      match pc.isSettled, t.latchedSection N latched true pc with
      | false, .ok (t', pc') => t'.play N rest pc'
      | _, _ => none

theorem Attempts.of_play {choices : List Bool} {t₁ : Tree K V} {pc₁ : Pc K V}
    (attempts : Attempts N t pc t₁ pc₁) (plays : t₁.play N choices pc₁ = some (t', pc'))
    : Attempts N t pc t' pc' := by
  induction choices generalizing t₁ pc₁ with
  | nil =>
      cases plays
      exact attempts
  | cons latched rest ih =>
      rw [Tree.play] at plays
      split at plays
      · rename_i t₂ pc₂ unsettled result
        exact ih (attempts.pass unsettled latched true (fun _ _ _ => rfl) result) plays
      · cases plays

/-- Between two calls of a single thread the tree is quiescent. -/
theorem single_thread_quiescent {N : PageCapacity} {s : System Unit K V}
    (reached : (System.transitions Unit K V N).Reachable s)
    (idle : (s.thread ()).status = .idle)
    : ∃ shape, Quiescent N.size s.tree shape := by
  obtain ⟨shape, tidy⟩ := reachable_tidy reached
  have exact := tidy.tidy
  rw [idle] at exact
  refine ⟨shape, tidy.ok.inv, exact, fun bare => ?_⟩
  obtain ⟨θ, key, pc, running, -⟩ := shrink_pending_reachable reached bare
  rw [idle] at running
  cases running

/-- A removal merges two internal pages, and then finds a leaf latched. -/
theorem pass_all_or_nothing_merged
    : ∃ (t t' : Tree Nat Nat) (shape : Shape) (pc' : Pc Nat Nat),
        Quiescent 3 t shape
        ∧ Attempts 3 t (.removeRoot (.ofKey 1)) t' pc'
        ∧ t.level 1 = [1, 6, 9]
        ∧ t'.level 1 = [6, 9]
        ∧ t'.len = 9
        ∧ t'.Sound 3 := by
  have plays : ((System.fresh : System Unit Nat Nat).replay .smallest [()]
      ([1, 2, 3].flatMap (fun key => Move.whole () (.insert key key) 3)
        ++ Move.whole () (.insert 4 4) 8 ++ Move.whole () (.insert 5 5) 9
        ++ Move.whole () (.insert 6 6) 9 ++ Move.whole () (.insert 7 7) 11
        ++ Move.whole () (.insert 8 8) 11 ++ Move.whole () (.insert 9 9) 12)).bind (fun played =>
          (played.2.tree.play 3 [true, true, true, true, false] (.removeRoot (.ofKey 1))).map
            (fun (t', pc') =>
              (played.2.isQuiet [()] && pc'.isAbandoned, played.2.tree.level 1, t'.level 1, t'.len)))
      = some (true, [1, 6, 9], [6, 9], 9) := by
    decide +kernel
  obtain ⟨⟨trace, s⟩, replayed, plays⟩ := Option.bind_eq_some_iff.mp plays
  obtain ⟨⟨t', pc'⟩, passes, checks⟩ := Option.map_eq_some_iff.mp plays
  simp only [Prod.mk.injEq, Bool.and_eq_true] at checks
  obtain ⟨⟨quiet, abandoned⟩, before, after, len⟩ := checks
  obtain ⟨shape, quiescent⟩ := single_thread_quiescent
    (System.reachable_of_replay (fun _ => List.mem_cons_self) replayed)
    (System.idle_of_isQuiet (fun _ => List.mem_cons_self) quiet ())
  have attempts := Attempts.of_play .begin passes
  have begins : (Call.remove (.ofKey 1)).PassBegins (.removeRoot (.ofKey 1) : Pc Nat Nat) :=
    Or.inr rfl
  obtain ⟨-, -, _, -, -, sound⟩ :=
    (pass_all_or_nothing (Nat.le_refl 3) quiescent quiescent.inv.represents begins
      attempts).1 abandoned
  exact ⟨s.tree, t', shape, pc', quiescent, attempts, before, after, len, sound⟩

end BLink
