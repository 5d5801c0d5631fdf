import BLink.Latching.Invariant

/-! Calls of one thread that run while every other thread is idle.
Public guards may retain latches meanwhile. The thread's next step is determined by what it
holds, and it never takes another one once it waits for a retained latch.
-/

namespace BLink

open Library

variable {ι K V : Type} [TotalOrd K]

-----------------------------------------------------------------------------------------
-- Steps of a thread that runs alone
-----------------------------------------------------------------------------------------

/-- A step of the thread in the middle of its call. An attempt to latch a page fails only when
the latch is not available.
-/
def Action.IsAlone (m : Machine ι K V) (θ : ι) : Action ι K V → Prop
  | .enter thread | .acquire thread | .latch thread | .hop thread | .act thread _
  | .load thread | .count thread | .release thread => thread = θ
  | .miss thread =>
      thread = θ
      ∧ ∀ p, (m.worker θ).phase = .attempt p → ¬ Available m.held (.page p) .exclusive
  | .invoke _ _ | .respond _ _ _ | .retain _ | .drop _ => False

namespace Machine

/-- Some public guard retains the latch. -/
def Retains (m : Machine ι K V) (latch : Latch) : Prop := ∃ mode, (latch, mode) ∈ m.guards

/-- No other thread holds a latch. -/
def Solitary (m : Machine ι K V) (θ : ι) : Prop :=
  ∀ other, other ≠ θ → (m.worker other).held = []

variable [DecidableEq ι]

/-- The thread takes a step while no other thread and no owner of a guard does anything. -/
def AloneStep (N : PageCapacity) (θ : ι) (m m' : Machine ι K V) : Prop :=
  ∃ action, Step N m action m' ∧ action.IsAlone m θ

/-- The thread, which runs alone, can go on until its call has a response and it holds no
latch. A thread that has to wait for a latch cannot go on, because nobody releases the latch.
-/
inductive ReturnsAlone (N : PageCapacity) (θ : ι) : Machine ι K V → Prop
  | returned {m call response}
    (done : (m.system.thread θ).status = .running call (.done response))
    (free : m.worker θ = .resting)
    : ReturnsAlone N θ m
  | step {m} (goes : ∃ m', AloneStep N θ m m')
    (returns : ∀ m', AloneStep N θ m m' → ReturnsAlone N θ m')
    : ReturnsAlone N θ m

/-- What the one next step of a thread in the section at `pc` is, by what it holds and does
next.
-/
inductive Turned (N : PageCapacity) (m : Machine ι K V) (θ : ι) (call : Call K V) (pc : Pc K V)
    : Worker → Machine ι K V → Prop
  | enter (unfinished : pc.isFinal = false) : Turned N m θ call pc .resting (m.enter N θ pc)
  | acquire {held latch mode} (available : Available m.held latch mode)
    : Turned N m θ call pc { held, phase := .await latch mode } (m.grant N θ pc latch mode)
  | latch {held p} (available : Available m.held (.page p) .exclusive)
    : Turned N m θ call pc { held, phase := .attempt p } (m.grant N θ pc (.page p) .exclusive)
  | miss {held p} (unavailable : ¬ Available m.held (.page p) .exclusive)
    : Turned N m θ call pc { held, phase := .attempt p }
        (m.setWorker θ { held, phase := .act false })
  | hop {newest rest target}
    : Turned N m θ call pc { held := newest :: rest, phase := .hop target }
        (m.setWorker θ { held := rest, phase := .await (.page target) .exclusive })
  | act {held latched} (upgraded : Bool)
    : Turned N m θ call pc { held, phase := .act latched }
        (m.perform N θ call latched upgraded pc)
  | load {held m'} : Turned N m θ call pc { held, phase := .load } m'
  | count {held tally}
    : Turned N m θ call pc { held, phase := .count tally }
        { m.setWorker θ { held, phase := .release } with counter := tally.update m.counter }
  | release {newest rest}
    : Turned N m θ call pc { held := newest :: rest, phase := .release }
        (m.setWorker θ { held := rest, phase := .release })

variable {N : PageCapacity} {m m' : Machine ι K V} {θ : ι} {call : Call K V} {pc : Pc K V}
  {worker worker' : Worker}

theorem AloneStep.turned (step : AloneStep N θ m m')
    (running : (m.system.thread θ).status = .running call pc)
    : Turned N m θ call pc (m.worker θ) m' := by
  obtain ⟨action, step, alone⟩ := step
  have split {phase : Phase} (next : (m.worker θ).phase = phase)
      : m.worker θ = { held := (m.worker θ).held, phase } := by
    rw [← next]
  cases step with
  | invoke | respond | retain | drop => exact alone.elim
  | enter running' unfinished free =>
      obtain rfl := alone
      cases running.symm.trans running'
      rw [free]
      exact .enter unfinished
  | acquire running' waits available =>
      obtain rfl := alone
      cases running.symm.trans running'
      rw [split waits]
      exact .acquire available
  | latch running' tries available =>
      obtain rfl := alone
      cases running.symm.trans running'
      rw [split tries]
      exact .latch available
  | miss tries =>
      obtain ⟨rfl, unavailable⟩ := alone
      rw [split tries]
      exact .miss (unavailable _ tries)
  | hop hops =>
      obtain rfl := alone
      rw [hops]
      exact .hop
  | act running' acts weak =>
      obtain rfl := alone
      cases running.symm.trans running'
      rw [split acts]
      exact .act _
  | load running' loads =>
      obtain rfl := alone
      rw [split loads]
      exact .load
  | count counts =>
      obtain rfl := alone
      rw [split counts]
      exact .count
  | release releases =>
      obtain rfl := alone
      rw [releases]
      exact .release

@[simp] theorem setWorker_self (m : Machine ι K V) (θ : ι) (worker : Worker)
    : (m.setWorker θ worker).worker θ = worker := Function.update_self ..

@[simp] theorem setWorker_setWorker (m : Machine ι K V) (θ : ι) (worker worker' : Worker)
    : (m.setWorker θ worker).setWorker θ worker' = m.setWorker θ worker' := by
  rw [setWorker, setWorker, setWorker]
  simp only [Function.update_idem]

@[simp] theorem setWorker_system (m : Machine ι K V) (θ : ι) (worker : Worker)
    : (m.setWorker θ worker).system = m.system := rfl

/-- A step that has no alternative decides nothing. -/
theorem returnsAlone_turn {action : Action ι K V}
    (running : (m.system.thread θ).status = .running call pc)
    (step : Step N (m.setWorker θ worker) action m')
    (alone : action.IsAlone (m.setWorker θ worker) θ)
    (only : ∀ other, Turned N (m.setWorker θ worker) θ call pc worker other → other = m')
    : ReturnsAlone N θ (m.setWorker θ worker) ↔ ReturnsAlone N θ m' := by
  have turned {other : Machine ι K V} (step : AloneStep N θ (m.setWorker θ worker) other)
      : Turned N (m.setWorker θ worker) θ call pc worker other := by
    have turned := step.turned running
    rwa [setWorker_self] at turned
  constructor
  · intro returns
    cases returns with
    | returned done free =>
        have final := running.symm.trans done
        cases final
        rw [setWorker_self] at free
        subst free
        cases turned ⟨action, step, alone⟩ with
        | enter unfinished => cases unfinished
    | step _ returns => exact returns m' ⟨action, step, alone⟩
  · intro returns
    refine .step ⟨m', action, step, alone⟩ (fun other alone => ?_)
    rw [only other (turned alone)]
    exact returns

theorem Solitary.setWorker (solitary : m.Solitary θ) (worker : Worker)
    : (m.setWorker θ worker).Solitary θ := by
  intro other differs
  rw [← solitary other differs]
  exact congrArg Worker.held (Function.update_of_ne differs ..)

/-- A latch is available when neither the thread nor a public guard holds it. -/
theorem Solitary.available {latch : Latch} (solitary : m.Solitary θ)
    (free : ¬ m.Retains latch) (new : ∀ mode, (latch, mode) ∉ (m.worker θ).held) (mode : Mode)
    : Available m.held latch mode := by
  intro holder other member
  cases holder with
  | none => exact absurd ⟨other, member⟩ free
  | some thread =>
      by_cases mine : thread = θ
      · subst mine
        exact absurd member (new other)
      · have member : (latch, other) ∈ (m.worker thread).held := member
        rw [solitary thread mine] at member
        cases member

omit [DecidableEq ι] in
/-- A retained latch is not available exclusively. -/
theorem Retains.unavailable {latch : Latch} (retained : m.Retains latch)
    : ¬ Available m.held latch .exclusive := by
  intro available
  obtain ⟨mode, member⟩ := retained
  cases (available none mode member).1

end Machine

-----------------------------------------------------------------------------------------
-- The latches of a section
-----------------------------------------------------------------------------------------

/-- In the section at `pc` the thread gets one more latch, which neither it nor a public guard
holds, or goes on to the page that a retired one forwards to.
-/
inductive Obtains (N : Nat) (t : Tree K V) (pc : Pc K V) (retained : Latch → Prop)
    : Worker → Worker → Prop
  | await {held latch mode} (free : ¬ retained latch) (new : ∀ mode, (latch, mode) ∉ held)
    : Obtains N t pc retained { held, phase := .await latch mode }
        { held := (latch, mode) :: held, phase := t.plan N pc ((latch, mode) :: held) }
  | attempt {held p} (free : ¬ retained (.page p)) (new : ∀ mode, (.page p, mode) ∉ held)
    : Obtains N t pc retained { held, phase := .attempt p }
        {
          held := (.page p, .exclusive) :: held
          phase := t.plan N pc ((.page p, .exclusive) :: held)
        }
  | hop {newest rest target}
    : Obtains N t pc retained { held := newest :: rest, phase := .hop target }
        { held := rest, phase := .await (.page target) .exclusive }

/-- Where a thread without latches stands when it begins the section at `pc`. -/
def Tree.entry (t : Tree K V) (N : Nat) (pc : Pc K V) : Worker :=
  { held := [], phase := t.plan N pc [] }

/-- From `pc` the operation, run alone, comes to a response if `free`, and otherwise comes to
wait for a retained latch.
-/
inductive Decides (N : Nat) (retained : Latch → Prop) (free : Prop) : Tree K V → Pc K V → Prop
  | done {t response} (holds : free) : Decides N retained free t (.done response)
  | pass {t t' pc pc' held} (unsettled : pc.isSettled = false) (steady : pc.upgrades t = none)
    (obtains
      : Relation.ReflTransGen (Obtains N t pc retained) (t.entry N pc)
          { held, phase := .act true })
    (result : ∀ upgraded, t.latchedSection N true upgraded pc = .ok (t', pc'))
    (decides : Decides N retained free t' pc')
    : Decides N retained free t pc
  | wait {t pc held latch} (unsettled : pc.isSettled = false)
    (obtains
      : Relation.ReflTransGen (Obtains N t pc retained) (t.entry N pc)
          { held, phase := .await latch .exclusive })
    (retains : retained latch) (fails : ¬ free)
    : Decides N retained free t pc

namespace Machine

variable [DecidableEq ι] {N : PageCapacity} {m m' : Machine ι K V} {θ : ι} {call : Call K V}
  {pc pc' : Pc K V} {worker worker' : Worker} {t' : Tree K V}

/-- Getting a latch decides nothing. -/
theorem returnsAlone_obtains (running : (m.system.thread θ).status = .running call pc)
    (solitary : m.Solitary θ)
    (obtains : Obtains N.size m.system.tree pc m.Retains worker worker')
    : ReturnsAlone N θ (m.setWorker θ worker) ↔ ReturnsAlone N θ (m.setWorker θ worker') := by
  have available {held : List (Latch × Mode)} {phase : Phase} {latch : Latch}
      (free : ¬ m.Retains latch) (new : ∀ mode, (latch, mode) ∉ held) (mode : Mode)
      : Available (m.setWorker θ { held, phase }).held latch mode := by
    refine (solitary.setWorker _).available free ?_ mode
    rwa [setWorker_self]
  cases obtains with
  | @await held latch mode free new =>
      have granted : (m.setWorker θ { held, phase := .await latch mode }).grant N θ pc latch mode
          = m.setWorker θ {
              held := (latch, mode) :: held
              phase := m.system.tree.plan N.size pc ((latch, mode) :: held)
            } := by
        simp only [grant, setWorker_self, setWorker_setWorker, setWorker_system]
      rw [← granted]
      refine returnsAlone_turn running (.acquire running ?_ (available free new mode)) rfl ?_
      · rw [setWorker_self]
      · intro other turned
        cases turned
        rfl
  | @attempt held p free new =>
      have granted : (m.setWorker θ { held, phase := .attempt p }).grant N θ pc (.page p) .exclusive
          = m.setWorker θ {
              held := (.page p, .exclusive) :: held
              phase := m.system.tree.plan N.size pc ((.page p, .exclusive) :: held)
            } := by
        simp only [grant, setWorker_self, setWorker_setWorker, setWorker_system]
      rw [← granted]
      refine returnsAlone_turn running (.latch running ?_ (available free new _)) rfl ?_
      · rw [setWorker_self]
      · intro other turned
        cases turned with
        | latch => rfl
        | miss unavailable => exact absurd (available free new _) unavailable
  | @hop newest rest target =>
      rw [← setWorker_setWorker m θ { held := newest :: rest, phase := .hop target }
        { held := rest, phase := .await (.page target) .exclusive }]
      refine returnsAlone_turn running (.hop (setWorker_self ..)) rfl ?_
      intro other turned
      cases turned
      rfl

/-- Releasing the latches decides nothing: by induction on those that are left. -/
theorem returnsAlone_release (running : (m.system.thread θ).status = .running call pc)
    (held : List (Latch × Mode))
    : ReturnsAlone N θ (m.setWorker θ { held, phase := .release })
      ↔ ReturnsAlone N θ (m.setWorker θ .resting) := by
  induction held with
  | nil => exact Iff.rfl
  | cons newest rest ih =>
      rw [← ih, ← setWorker_setWorker m θ { held := newest :: rest, phase := .release }
        { held := rest, phase := .release }]
      refine returnsAlone_turn running (.release (setWorker_self ..)) rfl ?_
      intro other turned
      cases turned
      rfl

/-- Updating the counter, and releasing the latches then, decides nothing. -/
theorem returnsAlone_count (running : (m.system.thread θ).status = .running call pc)
    (held : List (Latch × Mode)) (tally : Tally)
    : ReturnsAlone N θ (m.setWorker θ { held, phase := .count tally })
      ↔ ReturnsAlone N θ
          ({ m with counter := tally.update m.counter }.setWorker θ .resting) := by
  let counted : Machine ι K V := { m with counter := tally.update m.counter }
  have counts : counted.setWorker θ { held, phase := .release }
      = {
          (m.setWorker θ { held, phase := .count tally }).setWorker θ {
            (m.setWorker θ { held, phase := .count tally }).worker θ with
            phase := .release
          } with
          counter := tally.update m.counter
        } := by
    rw [setWorker_setWorker, setWorker_self]
    rfl
  rw [← returnsAlone_release (m := counted) running held, counts]
  refine returnsAlone_turn running (.count ?_) rfl ?_
  · rw [setWorker_self]
  · intro other turned
    cases turned
    rw [setWorker_self]
    rfl

/-- Beginning a section and getting latches decides nothing. -/
theorem returnsAlone_enter (running : (m.system.thread θ).status = .running call pc)
    (solitary : m.Solitary θ) (unsettled : pc.isSettled = false)
    (obtains
      : Relation.ReflTransGen (Obtains N.size m.system.tree pc m.Retains)
          (m.system.tree.entry N.size pc) worker)
    : ReturnsAlone N θ (m.setWorker θ .resting) ↔ ReturnsAlone N θ (m.setWorker θ worker) := by
  induction obtains with
  | refl =>
      have unfinished : pc.isFinal = false := by
        cases pc with
        | done | panicked => cases unsettled
        | _ => rfl
      rw [← setWorker_setWorker m θ .resting (m.system.tree.entry N.size pc)]
      refine returnsAlone_turn running (.enter running unfinished (setWorker_self ..)) rfl ?_
      intro other turned
      cases turned with
      | enter => rfl
  | tail _ last ih => exact ih.trans (returnsAlone_obtains running solitary last)

/-- Passing a section decides nothing. -/
theorem returnsAlone_pass {held : List (Latch × Mode)}
    (running : (m.system.thread θ).status = .running call pc) (solitary : m.Solitary θ)
    (unsettled : pc.isSettled = false) (steady : pc.upgrades m.system.tree = none)
    (obtains
      : Relation.ReflTransGen (Obtains N.size m.system.tree pc m.Retains)
          (m.system.tree.entry N.size pc) { held, phase := .act true })
    (result
      : ∀ upgraded, m.system.tree.latchedSection N.size true upgraded pc = .ok (t', pc'))
    (keeps : ∀ cursor found, pc' ≠ .candidate cursor found)
    : ∃ m' : Machine ι K V,
        m'.system.tree = t'
        ∧ (m'.system.thread θ).status = .running call pc'
        ∧ m'.Solitary θ
        ∧ m'.guards = m.guards
        ∧ (ReturnsAlone N θ (m.setWorker θ .resting)
          ↔ ReturnsAlone N θ (m'.setWorker θ .resting)) := by
  let after : Machine ι K V := {
    m with
    system := m.system.afterSection θ call (.ok (t', pc'))
    index := Function.update m.index θ
      ((m.setWorker θ { held, phase := .act true }).foundIndex θ pc)
  }
  have status : (after.system.thread θ).status = .running call pc' := by
    have resumed : (after.system.thread θ) = (m.system.thread θ).resume call pc' :=
      System.setThread_same ..
    rw [resumed]
    cases pc' with
    | candidate cursor found => exact absurd rfl (keeps cursor found)
    | _ => rfl
  have performs : ReturnsAlone N θ (m.setWorker θ { held, phase := .act true })
      ↔ ReturnsAlone N θ
          (after.setWorker θ { held, phase := .publish m.system.tree.len t'.len }) := by
    have performed (upgraded : Bool)
        : (m.setWorker θ { held, phase := .act true }).perform N θ call true upgraded pc
          = after.setWorker θ { held, phase := .publish m.system.tree.len t'.len } := by
      simp only [perform, setWorker_self, setWorker_setWorker, setWorker_system, result]
      rfl
    rw [← performed true]
    refine returnsAlone_turn running (.act running ?_ ?_) rfl ?_
    · rw [setWorker_self]
    · intro page weak
      cases steady.symm.trans weak
    · intro other turned
      cases turned with
      | act upgraded => exact (performed upgraded).trans (performed true).symm
  have returns := (returnsAlone_enter running solitary unsettled obtains).trans performs
  generalize m.system.tree.len = before at returns
  rw [Phase.publish] at returns
  split_ifs at returns
  · exact ⟨{ after with counter := Tally.added.update after.counter }, rfl, status, solitary, rfl,
      returns.trans (returnsAlone_count status held .added)⟩
  · exact ⟨{ after with counter := Tally.removed.update after.counter }, rfl, status, solitary, rfl,
      returns.trans (returnsAlone_count status held .removed)⟩
  · exact ⟨after, rfl, status, solitary, rfl, returns.trans (returnsAlone_release status held)⟩

/-- A thread that waits for a retained latch does not return. -/
theorem not_returnsAlone_wait {held : List (Latch × Mode)} {latch : Latch}
    (running : (m.system.thread θ).status = .running call pc) (retained : m.Retains latch)
    : ¬ ReturnsAlone N θ (m.setWorker θ { held, phase := .await latch .exclusive }) := by
  intro returns
  cases returns with
  | returned _ free =>
      rw [setWorker_self] at free
      cases free
  | step goes _ =>
      obtain ⟨other, step⟩ := goes
      have turned := step.turned running
      rw [setWorker_self] at turned
      cases turned with
      | acquire available =>
          have still : (m.setWorker θ { held, phase := .await latch .exclusive }).Retains latch :=
            retained
          exact still.unavailable available

end Machine

variable [DecidableEq ι] {N : PageCapacity} {m : Machine ι K V} {θ : ι} {call : Call K V}
  {pc : Pc K V} {t : Tree K V} {free : Prop}

/-- A thread returns exactly when its operation comes to a response: by induction on the
sections that it passes.
-/
theorem Decides.returnsAlone_iff {retained : Latch → Prop}
    (decides : Decides N.size retained free t pc) (isTree : m.system.tree = t)
    (isRetained : m.Retains = retained)
    (running : (m.system.thread θ).status = .running call pc) (solitary : m.Solitary θ)
    : Machine.ReturnsAlone N θ (m.setWorker θ .resting) ↔ free := by
  induction decides generalizing m with
  | done holds => exact iff_of_true (.returned running (Machine.setWorker_self ..)) holds
  | @pass _ t' _ pc' held unsettled steady obtains result decides ih =>
      subst isTree isRetained
      have keeps (cursor : Nat) (found : Option (Entry K V)) : pc' ≠ .candidate cursor found := by
        intro isCandidate
        subst isCandidate
        cases decides with
        | pass unsettled | wait unsettled => cases unsettled
      obtain ⟨m', isTree, running', solitary', guards, returns⟩ :=
        Machine.returnsAlone_pass running solitary unsettled steady obtains result keeps
      have isRetained : m'.Retains = m.Retains := by
        funext latch
        rw [Machine.Retains, guards]
        rfl
      exact returns.trans (ih isTree isRetained running' solitary')
  | wait unsettled obtains retains fails =>
      subst isTree isRetained
      refine iff_of_false (fun returns => ?_) fails
      rw [Machine.returnsAlone_enter running solitary unsettled obtains] at returns
      exact Machine.not_returnsAlone_wait running retains returns

end BLink
