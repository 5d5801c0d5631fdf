import BLink.Library.Balance
import BLink.Runs.Invariant
import BLink.Runs.Schedule
import Mathlib.Data.Fintype.Basic

/-! What becomes of the values that callers hand to the map.
An insertion moves its value along until a leaf takes it in; the value that it replaces, or that
a removal takes out, moves along until the call returns it. Splits, borrowing, merges and
repetitions of a pass move no value out of the tree, and none into it.
-/

namespace BLink

open Library

variable {ι K V M : Type} [TotalOrd K] [AddCommMonoid M] (amount : V → M)

/-- The values among an operation's local variables: what an insertion has not inserted yet, and
what a call returns to its caller.
-/
def Pc.carried : Pc K V → Option V
  | .leafRoot (.write (.tryInsertWithoutSplit _ value))
  | .leafRead (.write (.tryInsertWithoutSplit _ value)) _
  | .leafWrite (.tryInsertWithoutSplit _ value) _
  | .splitRootIfFull _ value | .insertRoot _ value | .insertAttempt _ value _
  | .repairSplitBacklink _ value _ _ _ _ => some value
  | .shrinkRoot _ (some removed) => removed
  | .done (.previous value) => value
  | _ => none

/-- The value that a thread's operation carries. -/
def Thread.carried (thread : Thread K V) : Option V :=
  match thread.status with
  | .idle => none
  | .running _ pc => pc.carried

/-- The value that a call hands to the map. -/
def Call.handed : Call K V → Option V
  | .insert _ value => some value
  | _ => none

/-- The value that a response hands back. -/
def Response.handed : Response K V → Option V
  | .previous value => value
  | _ => none

/-- The value that the map takes from its caller in a step. -/
def Label.taken : Label ι K V → Option V
  | .invoke _ call => call.handed
  | _ => none

/-- The value that the map gives to its caller in a step. -/
def Label.given : Label ι K V → Option V
  | .respond _ _ response => response.handed
  | _ => none

/-- The amounts of all values in the tree's records together. -/
def Tree.stored (t : Tree K V) (shape : Shape) : M :=
  ((t.records shape).map (fun entry => amount entry.value)).sum

variable {amount}

theorem Represents.stored {t : Tree K V} {shape : Shape} {map : SortedMap K V}
    (rep : Represents t shape map)
    : t.stored amount shape = map.worth amount := by
  rw [Tree.stored, SortedMap.worth, rep, List.map_map]
  rfl

-----------------------------------------------------------------------------------------
-- One section
-----------------------------------------------------------------------------------------

/-- The call writes through its exclusive access only what is worth as much as before. -/
def Call.KeepsAmount (amount : V → M) : Call K V → Prop
  | .getMut _ write => ∀ value, amount (write value) = amount value
  | _ => True

/-- No call makes values or loses them. -/
theorem Applies.balanced {call : Call K V} {map map' : SortedMap K V} {response : Response K V}
    (applies : Applies call map response map') (keeps : call.KeepsAmount amount)
    : map'.worth amount + SortedMap.worthOf amount response.handed
      = map.worth amount + SortedMap.worthOf amount call.handed := by
  have nothing : SortedMap.worthOf amount (none : Option V) = 0 := rfl
  cases call with
  | insert key value =>
      obtain ⟨rfl, rfl⟩ := applies
      exact SortedMap.worth_insert map key value
  | remove key =>
      obtain ⟨rfl, rfl⟩ := applies
      exact (SortedMap.worth_erase map key).trans (add_zero _).symm
  | getMut key write =>
      obtain ⟨rfl, found, rfl, -⟩ := applies
      rw [SortedMap.worth_modify map key keeps]
      rfl
  | get | firstKeyValue | lastKeyValue =>
      obtain ⟨rfl, found, rfl, -⟩ := applies
      rfl
  | containsKey | len | isEmpty =>
      obtain ⟨rfl, rfl⟩ := applies
      rfl
  | next => exact applies.elim

/-- An operation carries what its call has handed to it, until it has a result; then it carries
what the result hands back.
-/
theorem Pc.carried_eq {call : Call K V} {pc : Pc K V} (serves : pc.serves = some call)
    (undecided : pc.result = none)
    : pc.carried = call.handed := by
  cases pc with
  | leafRoot task | leafRead task =>
      cases serves
      rcases task with (_ | _ | _) | (_ | _ | _) <;> rfl
  | leafWrite task =>
      cases serves
      cases task <;> rfl
  | leftmostRoot consumer | leftmostLeaf consumer | firstEntry consumer =>
      cases serves
      cases consumer <;> rfl
  | shrinkRoot key result =>
      cases serves
      cases result with
      | none => rfl
      | some removed => cases undecided
  | done | panicked => cases serves
  | _ =>
      cases serves
      rfl

theorem Pc.carried_of_result {response : Response K V} {pc : Pc K V}
    (decided : pc.result = some response)
    : pc.carried = response.handed := by
  cases pc with
  | shrinkRoot key result =>
      cases result with
      | none => cases decided
      | some removed =>
          cases decided
          rfl
  | done response' =>
      cases decided
      cases response <;> rfl
  | _ => cases decided

/-- An operation without a result has a call to serve. -/
theorem Pc.serves_of_undecided {t : Tree K V} {shape : Shape} {pc : Pc K V} (ok : PcOk t shape pc)
    (undecided : pc.result = none)
    : ∃ call, pc.serves = some call := by
  cases pc with
  | done => cases undecided
  | panicked => exact ok.elim
  | _ => exact ⟨_, rfl⟩

variable [DecidableEq ι] {N : PageCapacity} {s s' : System ι K V} {shape : Shape} {θ : ι}
  {call : Call K V} {pc pc' : Pc K V} {latched upgraded : Bool} {t' : Tree K V}
  {map map' : SortedMap K V}

/-- A section moves values between the tree and the operation that passes it. -/
theorem SectionPass.balanced (passed : SectionPass N s shape θ latched upgraded s' call pc t' pc')
    (ok : SystemOk N s shape) {shape' : Shape} (advance : Advance N.size s.tree shape t' shape' pc')
    (outcome : Outcome map pc map' pc') (keeps : call.KeepsAmount amount)
    : map'.worth amount + SortedMap.worthOf amount pc'.carried
      = map.worth amount + SortedMap.worthOf amount pc.carried := by
  cases outcome with
  | silent same serves =>
      cases decided : pc.result with
      | some response =>
          rw [Pc.carried_of_result decided, Pc.carried_of_result (same.trans decided)]
      | none =>
          obtain ⟨served, isServed⟩ := Pc.serves_of_undecided advance.ok (same.trans decided)
          rw [Pc.carried_eq isServed (same.trans decided),
            Pc.carried_eq (serves served isServed) decided]
  | @point served response _ _ isServed undecided decided _ applies =>
      obtain rfl := (ok.thread θ).serves call pc passed.running served isServed
      rw [Pc.carried_eq isServed undecided, Pc.carried_of_result decided]
      exact applies.balanced keeps
  | last at' after =>
      subst at'
      cases passed.effect with
      | read _ reads =>
          cases reads with
          | seekFound _ _ _ source | seekNext _ _ _ _ _ _ _ source | seekEnd _ _ _ _ source =>
              rcases source with ⟨other, -⟩ | other <;> cases other
          | lastFound | lastForward => rfl
      | write other | insert other | remove other | repair other => cases other

-----------------------------------------------------------------------------------------
-- Runs
-----------------------------------------------------------------------------------------

omit [DecidableEq ι] in
theorem Thread.carried_of_running {thread : Thread K V}
    (running : thread.status = .running call pc)
    : thread.carried = pc.carried := by
  rw [Thread.carried, running]

omit [DecidableEq ι] in
theorem Thread.carried_resume (thread : Thread K V) (call : Call K V) (pc : Pc K V)
    : (thread.resume call pc).carried = pc.carried := by
  cases pc <;> rfl

omit [DecidableEq ι] in
theorem Call.carried_begin (call : Call K V) (cursors : Nat → Cursor K)
    : (call.begin cursors).2.carried = call.handed := by
  cases call with
  | next cursor =>
      cases begins : (cursors cursor).begin with
      | error panic => simp [begin, begins, Pc.carried, handed]
      | ok found =>
          obtain ⟨begun, seek⟩ := found
          cases seek <;> simp [begin, begins, Pc.carried, handed]
  | _ => rfl

/-- Every call in progress writes only what is worth as much as before. -/
def System.KeepsAmount (amount : V → M) (s : System ι K V) : Prop :=
  ∀ θ call pc, (s.thread θ).status = .running call pc → call.KeepsAmount amount

variable [Fintype ι] {label : Label ι K V}

/-- What the tree's records and all operations have together. -/
def System.stock (amount : V → M) (s : System ι K V) (shape : Shape) : M :=
  s.tree.stored amount shape + ∑ θ, SortedMap.worthOf amount (s.thread θ).carried

/-- When one thread goes on, and the tree with it, what the other threads carry stays. -/
theorem System.stock_advance {thread : Thread K V} {shape' : Shape} {gained lost : M}
    (target : s' = { s.setThread θ thread with tree := s'.tree })
    (mine
      : s'.tree.stored amount shape' + SortedMap.worthOf amount thread.carried + lost
        = s.tree.stored amount shape + SortedMap.worthOf amount (s.thread θ).carried + gained)
    : s'.stock amount shape' + lost = s.stock amount shape + gained := by
  have same : s'.thread θ = thread := by
    rw [target]
    exact System.setThread_same ..
  have others (other : ι) (differs : other ≠ θ)
      : SortedMap.worthOf amount (s'.thread other).carried
        = SortedMap.worthOf amount (s.thread other).carried := by
    have kept : s'.thread other = s.thread other := by
      rw [target]
      exact System.setThread_other _ _ differs
    rw [kept]
  obtain ⟨rest, before, after⟩ := exists_sum_rest others
  rw [System.stock, System.stock, before, after, same]
  calc
    s'.tree.stored amount shape' + (SortedMap.worthOf amount thread.carried + rest) + lost
      = s'.tree.stored amount shape' + SortedMap.worthOf amount thread.carried + lost + rest := by
        ac_rfl
    _ = _ := by
        rw [mine]
        ac_rfl

omit [AddCommMonoid M] [Fintype ι] in
theorem System.KeepsAmount.advance {thread : Thread K V} (keeps : s.KeepsAmount amount)
    (target : s' = { s.setThread θ thread with tree := s'.tree })
    (mine : ∀ call pc, thread.status = .running call pc → call.KeepsAmount amount)
    : s'.KeepsAmount amount := by
  intro other call pc running
  rw [target] at running
  by_cases here : other = θ
  · subst other
    refine mine call pc ?_
    rw [← running]
    exact congrArg Thread.status (System.setThread_same ..).symm
  · refine keeps other call pc ?_
    rw [← running]
    exact congrArg Thread.status (System.setThread_other _ _ here).symm

/-- What a step gives to callers, it takes out of the stock, and what it takes from them, it
puts into the stock.
-/
theorem System.stock_step (ok : SystemOk N s shape) (keeps : s.KeepsAmount amount)
    (step : (System.transitions ι K V N).step s label s')
    (invoked : ∀ θ call, label = .invoke θ call → call.KeepsAmount amount)
    : ∃ shape',
        SystemOk N s' shape'
        ∧ s'.KeepsAmount amount
        ∧ s'.stock amount shape' + SortedMap.worthOf amount label.given
          = s.stock amount shape + SortedMap.worthOf amount label.taken := by
  cases label with
  | invoke θ call =>
      cases step with
      | invoke idle =>
          have begins : Thread.carried {
              status := .running call (call.begin (s.thread θ).cursors).2
              cursors := (call.begin (s.thread θ).cursors).1
            } = call.handed :=
            call.carried_begin _
          have free : (s.thread θ).carried = none := by rw [Thread.carried, idle]
          refine ⟨shape, ok.invoke idle call, keeps.advance rfl ?_, System.stock_advance rfl ?_⟩
          · rintro _ _ ⟨⟩
            exact invoked θ call rfl
          · rw [begins, free]
            exact add_right_comm _ _ _
  | respond θ call response =>
      cases step with
      | respond done =>
          refine ⟨shape, ok.respond done, keeps.advance rfl (by rintro _ _ ⟨⟩),
            System.stock_advance rfl ?_⟩
          rw [Thread.carried_of_running done, Pc.carried_of_result rfl]
          exact add_right_comm _ _ _
  | pass θ latched upgraded =>
      obtain ⟨call, pc, t', pc', passed⟩ := ok.section_step step
      obtain ⟨shape', advance, outcomes⟩ := passed.preserved ok
      obtain ⟨map', rep', outcome⟩ := outcomes ok.inv.map ok.inv.represents
      have mine := keeps θ call pc passed.running
      have tree : s'.tree = t' := by rw [passed.target]
      have target : s'
          = { s.setThread θ ((s.thread θ).resume call pc') with tree := s'.tree } := by
        rw [tree]
        exact passed.target
      refine ⟨shape', passed.systemOk ok advance, keeps.advance target ?_,
        System.stock_advance target ?_⟩
      · intro other pc'' running
        obtain ⟨_, resumes, -⟩ := (s.thread θ).resume_running call pc'
        rw [resumes] at running
        cases running
        exact mine
      · rw [tree, rep'.stored, ok.inv.represents.stored, Thread.carried_resume,
          Thread.carried_of_running passed.running]
        exact congrArg (· + 0) (passed.balanced ok advance outcome mine)

/-- No value is lost, and none is made. After every run of any threads, the values in the
records of the tree, those that calls in progress carry, and those that calls have returned, are
together those that callers have handed to insertions; counted by any measure that writes
through exclusive access leave as it is.
-/
theorem values_conserved {trace : List (Transition (System ι K V) (Label ι K V))}
    (initial : (System.transitions ι K V N).init s)
    (run : (System.transitions ι K V N).Run s trace s')
    (invoked
      : ∀ transition ∈ trace,
          ∀ θ call, transition.label = .invoke θ call → call.KeepsAmount amount)
    : ∃ shape,
        Inv N.size s'.tree shape
        ∧ s'.tree.stored amount shape
            + ∑ θ, SortedMap.worthOf amount (s'.thread θ).carried
            + total (fun label => SortedMap.worthOf amount label.given) trace
          = total (fun label => SortedMap.worthOf amount label.taken) trace := by
  let Stocks (s : System ι K V) (stock : M) : Prop :=
    ∃ shape, SystemOk N s shape ∧ s.KeepsAmount amount ∧ stock = s.stock amount shape
  have begins : Stocks s 0 := by
    refine ⟨Shape.single, initial.ok, fun θ call pc running => ?_, ?_⟩
    · rw [initial.idle θ] at running
      cases running
    · have empty : s.tree.stored amount Shape.single = 0 := initial.represents.stored
      have nothing (θ : ι) : SortedMap.worthOf amount (s.thread θ).carried = 0 := by
        rw [Thread.carried, initial.idle θ]
        rfl
      simp [System.stock, empty, nothing]
  have whole : ∃ after,
      Stocks s' after
      ∧ after + total (fun label => SortedMap.worthOf amount label.given) trace
        = 0 + total (fun label => SortedMap.worthOf amount label.taken) trace := by
    refine run.balanced begins (fun transition member => ?_)
    rintro _ ⟨shape, ok, keeps, rfl⟩ step
    obtain ⟨shape', ok', keeps', balance⟩ :=
      System.stock_step ok keeps step (invoked transition member)
    exact ⟨_, ⟨shape', ok', keeps', rfl⟩, balance⟩
  obtain ⟨stock, ⟨shape, ok, -, rfl⟩, balance⟩ := whole
  exact ⟨shape, ok.inv, balance.trans (zero_add _)⟩

/-- A removal has returned the first of two values, and an insertion carries the second. -/
theorem values_conserved_carried
    : ∃ trace s shape,
        (System.transitions (Fin 2) Nat Nat .smallest).Run System.fresh trace s
        ∧ (s.thread 1).carried = some 8
        ∧ Inv PageCapacity.smallest.size s.tree shape
        ∧ s.tree.stored (fun _ => 1) shape
            + ∑ θ, SortedMap.worthOf (fun _ => 1) (s.thread θ).carried
            + total (fun label => SortedMap.worthOf (fun _ => 1) label.given) trace
          = total (fun label => SortedMap.worthOf (fun _ => 1) label.taken) trace := by
  have plays : ((System.fresh : System (Fin 2) Nat Nat).replay .smallest [0, 1]
      (Move.whole 0 (.insert 1 7) 3 ++ [.invoke 1 (.insert 1 8), .pass 1]
        ++ Move.whole 0 (.remove (.ofKey 1)) 3)).map (fun played =>
          (played.2.thread 1).carried)
      = some (some 8) := by
    decide +kernel
  obtain ⟨⟨trace, s⟩, replayed, carries⟩ := Option.map_eq_some_iff.mp plays
  have run := System.run_of_replay (by decide) replayed
  have keeps (call : Call Nat Nat) : call.KeepsAmount (fun _ => 1) := by
    cases call <;> first | trivial | exact fun _ => rfl
  obtain ⟨shape, inv, balance⟩ :=
    values_conserved System.fresh_initial run (fun _ _ _ call _ => keeps call)
  exact ⟨trace, s, shape, run, carries, inv, balance⟩

end BLink
