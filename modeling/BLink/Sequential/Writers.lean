import BLink.Sequential.Removals

/-! Insertions and removals that run alone, from a tree that no operation is at work on.
With or without their fast path in front, they come to the same result; they touch their
path and its immediate neighbours only.
-/

namespace BLink

open Library

variable {K V : Type} [TotalOrd K]

variable {N : Nat} {post : List (Passage K V) → Tree K V → Response K V → Prop} {t t' : Tree K V}
  {shape shape' : Shape} {pc start : Pc K V} {call : Call K V} {map : SortedMap K V}
  {key : Query K} {cursors : Nat → Cursor K}

/-- The key that an insertion or a removal looks for. -/
def Call.Seeks : Call K V → Query K → Prop
  | .insert key _, query => query = .ofKey key
  | .remove key, query => query = key
  | _, _ => False

/-- Where an insertion or a removal may start: with the fast path in front, or with the
structural path.
-/
def Call.Starts (call : Call K V) (cursors : Nat → Cursor K) (start : Pc K V) : Prop :=
  start = (call.begin cursors).2 ∨ call.restart = some start

theorem Quiescent.concludes (quiescent : Quiescent N t shape) (three : 3 ≤ N)
    (seeks : call.Seeks key) (starts : call.Starts cursors start)
    (post_of
      : ∀ path t' shape' response,
          Treats N call key path t shape t' shape'
          → post path t' response)
    : Concludes N post t start := by
  have inv := quiescent.inv
  cases call with
  | insert key value =>
      obtain rfl := seeks
      cases starts with
      | inl isFast =>
          subst isFast
          exact concludes_descent inv (fun earlier leaf owns =>
            concludes_tryInsertWithoutSplit three quiescent owns
              (fun path t' shape' response treats => post_of _ t' shape' response
                (treats.mono (List.subset_append_right earlier path))))
      | inr isStructural =>
          obtain rfl := Option.some.inj isStructural
          exact concludes_splitRootIfFull three (.begin quiescent inv.represents (.inl rfl)) post_of
  | remove key =>
      obtain rfl := seeks
      cases starts with
      | inl isFast =>
          subst isFast
          exact concludes_descent inv (fun earlier leaf owns =>
            concludes_tryRemoveWithoutRebalance three quiescent owns
              (fun path t' shape' response treats => post_of _ t' shape' response
                (treats.mono (List.subset_append_right earlier path))))
      | inr isStructural =>
          obtain rfl := Option.some.inj isStructural
          exact concludes_shrinkRoot three quiescent.separated
            (.begin quiescent inv.represents (.inl rfl)) post_of
  | _ => exact seeks.elim

/-- What is true in the middle of a pass is true when the operation has come to its end. Only
a removal that still shrinks the root leaves it without separators.
-/
theorem Concludes.midPass (concludes : Concludes N post t pc)
    (mid : MidPass N call map t shape pc) (three : 3 ≤ N) (writer : call.restart ≠ none)
    (bare : t.BareRoot → pc.shrinks = true)
    : Concludes N
        (fun path t' response =>
          post path t' response
          ∧ ¬ t'.BareRoot
          ∧ ∃ shape', MidPass N call map t' shape' (.done response))
        t pc := by
  induction concludes generalizing shape with
  | done holds =>
      refine .done ⟨holds, fun isBare => ?_, shape, mid⟩
      cases bare isBare
  | @pass _ t pc t' pc' unsettled result _ ih =>
      refine .pass unsettled result (fun upgraded weak => ?_)
      obtain ⟨shape', mid'⟩ := mid.step three writer unsettled weak (result upgraded)
      refine ih upgraded weak mid' (fun isBare => ?_)
      obtain ⟨t₁, pc₁, result₁, effect⟩ := section_ok mid.inv three true upgraded mid.ok unsettled
      obtain ⟨rfl, rfl⟩ := Prod.mk.inj (Except.ok.inj ((result upgraded).symm.trans result₁))
      cases effect.bareRoot mid.inv isBare with
      | inl shrinks => exact shrinks
      | inr before =>
          obtain ⟨wasBare, quiet⟩ := before
          rw [bare wasBare] at quiet
          cases quiet

theorem MidPass.of_starts (quiescent : Quiescent N t shape) (rep : Represents t shape map)
    (seeks : call.Seeks key) (starts : call.Starts cursors start)
    : MidPass N call map t shape start := by
  have begins {pc : Pc K V} (serves : pc.serves = some call) (undecided : pc.result = none)
      (ok : PcOk t shape pc) (quiet : pc.merges = none)
      : MidPass N call map t shape pc :=
    ⟨quiescent.inv, ok, quiescent.exact.but _, Pc.prompt_of_merges quiet,
      .pending serves undecided rep⟩
  cases call with
  | insert | remove =>
      cases starts with
      | inl isFast =>
          subst isFast
          exact begins rfl rfl trivial rfl
      | inr isStructural =>
          obtain rfl := Option.some.inj isStructural
          exact begins rfl rfl trivial rfl
  | _ => exact seeks.elim

/-- The response of an insertion or a removal and its effect depend on the map only. -/
theorem Applies.unique {response response' : Response K V} {map₁ map₂ : SortedMap K V}
    (applies : Applies call map response map₁) (applies' : Applies call map response' map₂)
    (seeks : call.Seeks key)
    : response = response' ∧ map₁ = map₂ := by
  cases call with
  | insert | remove => exact ⟨applies.2.trans applies'.2.symm, applies.1.trans applies'.1.symm⟩
  | _ => exact seeks.elim

/-- From a quiescent tree an insertion or a removal comes to an end, and its response, the
records that it leaves and the counter do not depend on whether it tries its fast path first.
Both ways leave a tree that is quiescent again.
-/
theorem fast_and_structural_agree (three : 3 ≤ N) (quiescent : Quiescent N t shape)
    (rep : Represents t shape map) (seeks : call.Seeks key) (cursors : Nat → Cursor K)
    : ∃ response map',
        Applies call map response map'
        ∧ ∀ start,
            call.Starts cursors start
            → (∃ t', Alone N t start t' (.done response))
              ∧ ∀ t' response',
                  Alone N t start t' (.done response')
                  → response' = response
                    ∧ t'.len = map'.size
                    ∧ t'.Valid N
                    ∧ ∃ shape', Quiescent N t' shape' ∧ Represents t' shape' map' := by
  have writer : call.restart ≠ none := by
    cases call with
    | insert | remove => exact nofun
    | _ => exact seeks.elim
  have ends {start : Pc K V} (starts : call.Starts cursors start)
      : Concludes N
          (fun _ t' response =>
            ∃ map' shape',
              Applies call map response map'
              ∧ Quiescent N t' shape'
              ∧ Represents t' shape' map')
          t start := by
    have concludes : Concludes N (fun _ _ _ => True) t start :=
      quiescent.concludes three seeks starts (fun _ _ _ _ _ => trivial)
    refine (concludes.midPass (.of_starts quiescent rep seeks starts) three writer ?_).mono ?_
    · exact fun bare => absurd bare quiescent.separated
    · intro path t' response reached
      obtain ⟨-, separated, shape', mid⟩ := reached
      have exact := ExactBut.exact mid.chains (Pc.not_repairs rfl rfl)
      cases mid.progress with
      | pending _ undecided => cases undecided
      | decided _ result rep' applies =>
          obtain rfl := Option.some.inj result
          exact ⟨_, shape', applies, ⟨mid.inv, exact, separated⟩, rep'⟩
  obtain ⟨-, t₀, response, -, map', -, applies, -⟩ := (ends (.inl rfl)).exists_solo
  refine ⟨response, map', applies, fun start starts => ⟨?_, fun t' response' alone => ?_⟩⟩
  · obtain ⟨path, t', response', solo, map₂, -, applies', -⟩ := (ends starts).exists_solo
    obtain ⟨rfl, -⟩ := applies'.unique applies seeks
    exact ⟨t', path, solo⟩
  · obtain ⟨path, solo⟩ := alone
    obtain ⟨map₂, shape', applies', quiescent', rep'⟩ :=
      ((ends starts).sound solo).2 response' rfl
    obtain ⟨rfl, rfl⟩ := applies'.unique applies seeks
    refine ⟨rfl, ?_, quiescent'.valid, shape', quiescent', rep'⟩
    rw [quiescent'.inv.count, SortedMap.size, rep', List.length_map]

/-- A value is replaced in a full leaf, which only the structural path splits. -/
theorem fast_and_structural_agree_full
    : ∃ (t t₁ t₂ : Tree Nat Nat) (shape : Shape) (response : Response Nat Nat),
        Quiescent 3 t shape
        ∧ t.level 0 = [0]
        ∧ t.len = 3
        ∧ Alone 3 t ((Call.insert 2 20).begin (fun _ => .newIter)).2 t₁ (.done response)
        ∧ Alone 3 t (.splitRootIfFull 2 20) t₂ (.done response)
        ∧ t₁.len = t₂.len := by
  have plays : ((System.fresh : System Unit Nat Nat).replay .smallest [()]
      ([1, 2, 3].flatMap (fun key => Move.whole () (.insert key key) 3))).map (fun played =>
        (played.2.tree.level 0, played.2.tree.len, played.2.isQuiet [()]))
      = some ([0], 3, true) := by
    decide +kernel
  obtain ⟨⟨trace, s⟩, replayed, checks⟩ := Option.map_eq_some_iff.mp plays
  simp only [Prod.mk.injEq] at checks
  obtain ⟨level, len, quiet⟩ := checks
  obtain ⟨shape, quiescent⟩ := single_thread_quiescent
    (System.reachable_of_replay (fun _ => List.mem_cons_self) replayed)
    (System.idle_of_isQuiet (fun _ => List.mem_cons_self) quiet ())
  have seeks : (Call.insert 2 20 : Call Nat Nat).Seeks (.ofKey 2) := rfl
  obtain ⟨response, map', -, agrees⟩ := fast_and_structural_agree (Nat.le_refl 3) quiescent
    quiescent.inv.represents seeks (fun _ => .newIter)
  obtain ⟨⟨t₁, fast⟩, sound⟩ := agrees _ (.inl rfl)
  obtain ⟨⟨t₂, structural⟩, sound'⟩ := agrees (.splitRootIfFull 2 20) (.inr rfl)
  have count := (sound t₁ response fast).2.1.trans (sound' t₂ response structural).2.1.symm
  exact ⟨s.tree, t₁, t₂, shape, response, quiescent, level, len, fast, structural, count⟩

end BLink
