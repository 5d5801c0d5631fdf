import BLink.Runs.Ownership
import BLink.Sequential.Answers

/-! The calls of a single thread on the ordered map that the tree stands for.
Each call finds the map as the last one has left it, and its response is the one that it has
on that map.
-/

namespace BLink

open Library

variable {K V : Type} [TotalOrd K]

-----------------------------------------------------------------------------------------
-- What each call is to answer
-----------------------------------------------------------------------------------------

/-- A call of `next` on a map: the result of the cursor, and its state after the call. -/
inductive Cursor.Nexts (map : SortedMap K V) (cursor : Cursor K)
    : Option (Entry K V) → Cursor K → Prop
  | exhausted (finished : cursor.isFinished = true) : Nexts map cursor none cursor
  | sought {begun : Cursor K} {found : Option (Entry K V)}
    (unfinished : cursor.isFinished = false)
    (begins : cursor.begin = .ok (begun, begun.seeking))
    (least : found.map Entry.record = begun.seeking.least map)
    : Nexts map cursor (begun.finish found).2 (begun.finish found).1

/-- A call with its response: the map and the cursors before and after it. -/
def Answers (call : Call K V) (cursors : Nat → Cursor K) (map : SortedMap K V)
    (response : Response K V) (map' : SortedMap K V) (cursors' : Nat → Cursor K)
    : Prop :=
  match call with
  | .next c =>
      map' = map
      ∧ ∃ result cursor',
          (cursors c).Nexts map result cursor'
          ∧ response = .entry result
          ∧ cursors' = Function.update cursors c cursor'
  | call => Applies call map response map' ∧ cursors' = cursors

variable {call : Call K V} {cursors : Nat → Cursor K} {map map' : SortedMap K V}
  {response : Response K V}

theorem Answers.of_applies (applies : Applies call map response map')
    : Answers call cursors map response map' cursors := by
  cases call with
  | next => exact applies.elim
  | _ => exact ⟨applies, rfl⟩

/-- Only a call of `next` moves cursors when it begins. -/
theorem Call.begin_plain (plain : ∀ c, call ≠ .next c)
    : (call.begin cursors).1 = cursors ∧ (call.begin cursors).2.result = none := by
  cases call with
  | next c => exact absurd rfl (plain c)
  | _ => exact ⟨rfl, rfl⟩

-----------------------------------------------------------------------------------------
-- States of a single thread
-----------------------------------------------------------------------------------------

/-- What the running call has come to, which found the map and the cursors as given. -/
structure Served (s : System Unit K V) (shape : Shape) (map : SortedMap K V)
    (cursors : Nat → Cursor K) (call : Call K V) (pc : Pc K V)
    : Prop where
  pending
    : pc.result = none
      → Represents s.tree shape map
        ∧ (s.thread ()).cursors = (call.begin cursors).1
        ∧ pc.Sole s.tree shape
  answered
    : ∀ response,
        pc.result = some response
        → ∃ map',
            Represents s.tree shape map'
            ∧ Answers call cursors map response map' (s.thread ()).cursors

/-- The state of a single thread whose latest call has found the map and the cursors as given;
between two calls, the next one will find them so.
-/
structure Serving (N : PageCapacity) (s : System Unit K V) (shape : Shape)
    (map : SortedMap K V) (cursors : Nat → Cursor K)
    : Prop where
  ok : SystemOk N s shape
  ordered : ∃ levels, Ordered s.tree shape levels
  ready : ∀ cursor, (cursors cursor).Ready
  idle
    : (s.thread ()).status = .idle
      → Represents s.tree shape map ∧ (s.thread ()).cursors = cursors
  running
    : ∀ call pc, (s.thread ()).status = .running call pc → Served s shape map cursors call pc

variable {N : PageCapacity} {s s' : System Unit K V} {shape shape' : Shape} {latched upgraded : Bool}
  {pc pc' : Pc K V} {t' : Tree K V}

/-- A finished cursor makes no lookup. -/
theorem Cursor.Begun.unfinished {cursor : Cursor K} (begun : cursor.Begun)
    : cursor.isFinished = false := by
  cases cursor with
  | iter => exact begun
  | range => exact begun.2

theorem Pc.result_of_seek (seek : pc.seek ≠ none) : pc.result = none := by
  cases pc with
  | shrinkRoot | done => exact absurd rfl seek
  | _ => rfl

/-- A section of a call that is not a cursor's. -/
theorem Served.plain (served : Served s shape map cursors call pc) (ok : SystemOk N s shape)
    (passed : SectionStep N s shape () latched upgraded s' call pc t' pc')
    (advance : Advance N.size s.tree shape t' shape' pc')
    (outcomes
      : ∀ map,
          Represents s.tree shape map
          → ∃ map', Represents t' shape' map' ∧ Outcome map pc map' pc')
    (plain : ∀ c, call ≠ .next c)
    : Served s' shape' map cursors call pc' := by
  have inv := ok.inv
  have pcOk := (ok.thread ()).pc call pc passed.running
  have serves := passed.serves_eq ok
  have tree : s'.tree = t' := by rw [passed.target]
  have kept : (s'.thread ()).cursors = (s.thread ()).cursors := by
    rw [passed.thread_eq]
    cases pc' with
    | candidate c found => exact absurd (passed.serves ok _ rfl).symm (plain c)
    | _ => rfl
  have unmoved : (call.begin cursors).1 = cursors ∧ _ := Call.begin_plain plain
  obtain ⟨same, -⟩ := unmoved
  cases result : pc.result with
  | some response =>
      obtain ⟨map₁, rep, answers⟩ := served.answered response result
      obtain ⟨map₂, rep', outcome⟩ := outcomes map₁ rep
      cases outcome with
      | silent unchanged =>
          refine ⟨fun none => ?_, fun response' isResult => ?_⟩
          · rw [unchanged, result] at none
            cases none
          · rw [unchanged, result, Option.some.injEq] at isResult
            rw [tree, kept, ← isResult]
            exact ⟨map₁, rep', answers⟩
      | point _ before =>
          rw [result] at before
          cases before
      | last at' =>
          rw [at'] at result
          cases result
  | none =>
      obtain ⟨rep, mine, sole⟩ := served.pending result
      obtain ⟨map₂, rep', outcome⟩ := outcomes map rep
      have sole' : pc'.Sole t' shape' := by
        refine passed.effect.sole inv sole (fun unchanged => ?_)
        have after := advance.inv
        rw [unchanged] at after
        exact after.shape_unique inv
      cases outcome with
      | silent unchanged =>
          refine ⟨fun _ => ?_, fun response' isResult => ?_⟩
          · rw [tree, kept]
            exact ⟨rep', mine, sole'⟩
          · rw [unchanged, result] at isResult
            cases isResult
      | point isServed _ after _ applies =>
          obtain rfl := Option.some.inj (isServed.symm.trans serves)
          refine ⟨fun none => ?_, fun response' isResult => ?_⟩
          · rw [after] at none
            cases none
          · rw [after, Option.some.injEq] at isResult
            rw [tree, kept, mine, same, ← isResult]
            exact ⟨map₂, rep', .of_applies applies⟩
      | @last p _ response at' after =>
          have isLast : call = .lastKeyValue := by
            rw [at'] at serves
            exact (Option.some.inj serves).symm
          have effect := passed.effect
          rw [after] at effect
          rw [isLast] at serves
          have greatest := effect.last_greatest inv N.three_le sole rep serves
          rw [after]
          refine ⟨nofun, fun response' isResult => ?_⟩
          obtain rfl := Option.some.inj isResult
          rw [tree, kept, mine, same, isLast]
          exact ⟨map, rep', ⟨rfl, greatest⟩, rfl⟩

/-- A section of a cursor's call. -/
theorem Served.next {c : Nat} (served : Served s shape map cursors (.next c) pc)
    (ok : SystemOk N s shape) (ready : ∀ cursor, (cursors cursor).Ready)
    (passed : SectionStep N s shape () latched upgraded s' (.next c) pc t' pc')
    (advance : Advance N.size s.tree shape t' shape' pc')
    (outcomes
      : ∀ map,
          Represents s.tree shape map
          → ∃ map', Represents t' shape' map' ∧ Outcome map pc map' pc')
    {pc'' : Pc K V} (status : (s'.thread ()).status = .running (.next c) pc'')
    : Served s' shape' map cursors (.next c) pc'' := by
  have inv := ok.inv
  have pcOk := (ok.thread ()).pc _ pc passed.running
  have unsettled := ((ok.thread ()).settled _ _ passed.running).trans passed.unfinished
  obtain ⟨seek, isSeek⟩ := Pc.seek_of_serves (passed.serves_eq ok) unsettled
  obtain ⟨isBegun, seeking⟩ := (ok.thread ()).seeking _ _ _ _ passed.running isSeek
  have some : pc.seek ≠ none := by
    rw [isSeek]
    exact Option.some_ne_none _
  obtain ⟨rep, mine, sole⟩ := served.pending (Pc.result_of_seek some)
  obtain ⟨map₂, rep', outcome⟩ := outcomes map rep
  have tree : s'.tree = t' := by rw [passed.target]
  have thread := passed.thread_eq
  have sole' : pc'.Sole t' shape' := by
    refine passed.effect.sole inv sole (fun unchanged => ?_)
    have after := advance.inv
    rw [unchanged] at after
    exact after.shape_unique inv
  cases passed.effect.seek_eq with
  | inl onward =>
      obtain ⟨same, settled⟩ := onward
      rw [Thread.resume_eq _ _ settled] at thread
      rw [thread] at status
      cases status
      have undecided : pc'.result = none := Pc.result_of_seek (by rwa [same])
      have unchanged : map₂ = map := by
        cases outcome with
        | silent => rfl
        | point _ _ after =>
            rw [undecided] at after
            cases after
        | last => rfl
      refine ⟨fun _ => ?_, fun response isResult => ?_⟩
      · rw [tree, thread, ← unchanged]
        exact ⟨rep', mine, sole'⟩
      · rw [undecided] at isResult
        cases isResult
  | inr ends =>
      obtain ⟨cursor, sought, found, isSought, rfl⟩ := ends
      rw [isSeek] at isSought
      cases isSought
      have least := passed.effect.candidate_least inv N.three_le pcOk sole rep isSeek
      have unchanged : map₂ = map := by
        cases outcome with
        | silent => rfl
        | point _ _ after => cases after
        | last => rfl
      -- The cursor that the call has found, as it began the call.
      obtain ⟨begun, seek', begins, mode⟩ := Cursor.begin_ok (ready c)
      have cursorEq : (s.thread ()).cursors = Function.update cursors c begun := by
        rw [mine, Call.begin]
        simp only [begins]
      have here : (s.thread ()).cursors c = begun := by rw [cursorEq, Function.update_self]
      rw [here] at isBegun seeking
      have resumed
          : s'.thread () = {
              status := .running (.next c) (.done (.entry (begun.finish found).2))
              cursors := Function.update cursors c (begun.finish found).1
            } := by
        rw [thread, Thread.resume]
        simp only [here, cursorEq, Function.update_idem]
      rw [resumed] at status
      cases status
      refine ⟨fun pending => absurd pending (Option.some_ne_none _), fun response isResult => ?_⟩
      obtain rfl := Option.some.inj isResult
      rw [tree, resumed]
      refine ⟨map, unchanged ▸ rep', rfl, (begun.finish found).2, (begun.finish found).1, ?_, rfl,
        rfl⟩
      cases mode with
      | inl finished =>
          rw [finished.2.1] at isBegun
          cases finished.1.symm.trans isBegun.unfinished
      | inr unfinished =>
          obtain ⟨unfinished, -, isSought⟩ := unfinished
          exact .sought unfinished (isSought ▸ begins) (seeking ▸ least)

/-- A call finds the map and the cursors as they are. -/
theorem Served.begin (ready : ∀ cursor, (cursors cursor).Ready) {begun : System Unit K V}
    (rep : Represents begun.tree shape map)
    (thread
      : begun.thread () = {
          status := .running call (call.begin cursors).2
          cursors := (call.begin cursors).1
        })
    : Served begun shape map cursors call (call.begin cursors).2 := by
  have moved : (begun.thread ()).cursors = (call.begin cursors).1 := by rw [thread]
  cases call with
  | next c =>
      obtain ⟨begun', seek, begins, mode⟩ := Cursor.begin_ok (ready c)
      rw [Call.begin] at moved ⊢
      simp only [begins] at moved ⊢
      cases mode with
      | inl finished =>
          obtain ⟨finished, rfl, rfl⟩ := finished
          refine ⟨fun pending => ?_, fun response isResult => ?_⟩
          · cases pending
          · obtain rfl := Option.some.inj isResult
            rw [moved]
            exact ⟨map, rep, rfl, none, _, .exhausted finished, rfl, rfl⟩
      | inr unfinished =>
          obtain ⟨-, -, rfl⟩ := unfinished
          refine ⟨fun _ => ⟨rep, ?_, ?_⟩, fun response isResult => ?_⟩
          · rw [moved, Call.begin]
            simp only [begins]
          · cases seek : begun'.seeking with
            | exhausted => exact absurd seek begun'.seeking_ne_exhausted
            | firstEntry | entryAtOrAfter => trivial
          · cases seek : begun'.seeking with
            | exhausted => exact absurd seek begun'.seeking_ne_exhausted
            | firstEntry | entryAtOrAfter =>
                rw [seek] at isResult
                cases isResult
  | _ =>
      refine ⟨fun _ => ⟨rep, moved, trivial⟩, fun response isResult => ?_⟩
      cases isResult

-----------------------------------------------------------------------------------------
-- Steps of a single thread
-----------------------------------------------------------------------------------------

theorem Serving.invoke (serving : Serving N s shape map cursors)
    (step : (System.transitions Unit K V N).step s (.invoke () call) s')
    : Serving N s' shape map cursors := by
  cases step with
  | invoke idle =>
      obtain ⟨rep, same⟩ := serving.idle idle
      rw [same]
      refine {
        ok := same ▸ serving.ok.invoke idle call
        ordered := serving.ordered
        ready := serving.ready
        idle := ?_
        running := ?_
      }
      · intro isIdle
        rw [System.setThread_same] at isIdle
        cases isIdle
      · intro call' pc running
        rw [System.setThread_same] at running
        cases running
        exact .begin serving.ready rep (System.setThread_same ..)

theorem Serving.pass (serving : Serving N s shape map cursors)
    (step : (System.transitions Unit K V N).step s (.pass () latched upgraded) s')
    : ∃ shape', Serving N s' shape' map cursors := by
  have ok := serving.ok
  obtain ⟨call, pc, t', pc', passed⟩ := ok.section_step step
  obtain ⟨shape', advance, outcomes⟩ := passed.preserved ok
  obtain ⟨levels, ordered⟩ := serving.ordered
  obtain ⟨levels', ordered', -⟩ := passed.effect.ordered ok.inv N.three_le advance.inv ordered
  obtain ⟨pc'', status⟩ := (s.thread ()).resume_status call pc'
  rw [← passed.thread_eq] at status
  have tree : s'.tree = t' := by rw [passed.target]
  refine ⟨shape', {
    ok := passed.systemOk ok advance
    ordered := ⟨levels', tree ▸ ordered'⟩
    ready := serving.ready
    idle := ?_
    running := ?_
  }⟩
  · intro isIdle
    rw [status] at isIdle
    cases isIdle
  · intro call' pc₁ running
    rw [status] at running
    cases running
    have served := serving.running call pc passed.running
    cases call with
    | next c => exact served.next ok serving.ready passed advance outcomes status
    | _ =>
        have plain := passed.status_eq ok nofun
        rw [plain] at status
        cases status
        exact served.plain ok passed advance outcomes nofun

theorem Serving.respond (serving : Serving N s shape map cursors)
    (step : (System.transitions Unit K V N).step s (.respond () call response) s')
    : ∃ map' cursors',
        Serving N s' shape map' cursors'
        ∧ Answers call cursors map response map' cursors' := by
  cases step with
  | respond done =>
      obtain ⟨map', rep, answers⟩ := (serving.running _ _ done).answered response rfl
      have ok' := serving.ok.respond done
      have idle : ((s.setThread () { s.thread () with status := .idle }).thread ()).status = .idle :=
        congrArg Thread.status (System.setThread_same ..)
      have kept
          : ((s.setThread () { s.thread () with status := .idle }).thread ()).cursors
            = (s.thread ()).cursors := by
        rw [System.setThread_same]
      refine ⟨map', (s.thread ()).cursors, {
        ok := ok'
        ordered := serving.ordered
        ready := ?_
        idle := fun _ => ⟨rep, kept⟩
        running := ?_
      }, answers⟩
      · intro cursor
        rw [← kept]
        refine (ok'.thread ()).ready cursor (fun _ _ _ running => ?_)
        rw [idle] at running
        cases running
      · intro call' pc running
        rw [idle] at running
        cases running

/-- Before the first call the map is empty. -/
theorem Serving.initial (initial : s.Initial)
    : Serving N s Shape.single SortedMap.empty (s.thread ()).cursors where
  ok := initial.ok
  ordered := by
    rw [initial.tree]
    exact ⟨Levels.first, .empty⟩
  ready := fun cursor => (initial.cursors () cursor).ready
  idle := fun _ => ⟨initial.represents, rfl⟩
  running := fun call pc running => by
    rw [initial.idle] at running
    cases running

end BLink
