import BLink.Runs.Iteration
import BLink.Sections.Fences

/-! Which records an iteration is sure to yield.
A record that is stored all the time lies ahead of the cursor until the cursor yields it. It
can only get behind the cursor when the leaf at which the cursor waits lends it to the left.
-/

namespace BLink

open Library

variable {ι K V : Type} [TotalOrd K]

-----------------------------------------------------------------------------------------
-- One lookup of the cursor
-----------------------------------------------------------------------------------------

/-- The lookup has not gone past the key. -/
def Pc.Approaches (t : Tree K V) (key : K) : Pc K V → Prop
  | .seekRight _ _ _ p => t.LeadsBefore p key
  | .candidate _ found => ∃ entry ∈ found, (compare entry.key.key key).isLE
  | _ => True

section

variable {N : Nat} {t t' : Tree K V} {shape : Shape} {p : PageId} {key : K} {upgraded : Bool}
  {pc pc' : Pc K V} {entries : List (Entry K V)} {query : Query K} {inclusive : Bool}

/-- The leaf that owns the query begins before every key that the query accepts. -/
theorem Tree.beginsBy_of_covers (covers : Covers (t.low p) (t.high p) query)
    (accepts : (Seek.entryAtOrAfter query inclusive).Accepts key)
    : t.BeginsBy p key := by
  intro low isLow
  by_contra notLe
  have less : compare key low.key = .lt := Std.OrientedCmp.lt_of_not_isLE notLe
  rcases accepts with below | ⟨-, equal⟩
  · exact covers.1 low isLow (query.lt_of_le below (isLE_of_compare_lt less))
  · exact covers.1 low isLow (query.lt_of_eq_of_lt equal less)

theorem seek_accepts {entry : Entry K V}
    (accepts : (Seek.entryAtOrAfter query inclusive).Accepts key)
    (equal : compare key entry.key.key = .eq)
    : query.cmp entry.key.key = .lt ∨ inclusive = true ∧ query.cmp entry.key.key = .eq := by
  rw [← query.cmp_congr equal]
  exact accepts

/-- A lookup in a leaf that begins before an accepted key finds a record up to that key. -/
theorem Inv.seek_le (inv : Inv N t shape) (member : p ∈ shape.row 0)
    (kind : (t.page p).kind = .leaf entries) (begins : t.BeginsBy p key)
    (accepts : (Seek.entryAtOrAfter query inclusive).Accepts key) (stored : t.StoresKey key)
    {found : Entry K V} (isFound : seek entries query inclusive = some found)
    : (compare found.key.key key).isLE := by
  have same : t.entries p = entries := by rw [Tree.entries, kind]; rfl
  have foundInside := List.mem_of_find?_eq_some isFound
  by_contra notLe
  have above : compare key found.key.key = .lt := Std.OrientedCmp.lt_of_not_isLE notLe
  obtain ⟨entry, inside, equal⟩ := inv.mem_of_beginsBy member begins
    (fun high isHigh => Std.TransCmp.lt_trans above
      ((inv.within member (by rwa [same])).2 high isHigh)) stored
  rw [same] at inside
  obtain ⟨-, front, back, rfl, rejected⟩ := List.find?_eq_some_iff_append.mp isFound
  have sorted := (inv.content_leaf member kind).1
  rw [compare_congr_left equal] at above
  rcases List.mem_append.mp inside with before | after
  · have accepted := seek_accepts accepts equal
    simpa [accepted] using rejected entry before
  · rcases List.mem_cons.mp after with rfl | later
    · simp [Std.ReflCmp.compare_self] at above
    · have less := (List.pairwise_cons.mp (List.pairwise_append.mp sorted).2.1).1 entry later
      exact Std.OrientedCmp.not_isLE_of_lt above (isLE_of_compare_lt less)

/-- When a lookup finds nothing in such a leaf, the leaf ends before the key. -/
theorem Inv.ends_of_seek_none (inv : Inv N t shape) (member : p ∈ shape.row 0)
    (kind : (t.page p).kind = .leaf entries) (begins : t.BeginsBy p key)
    (accepts : (Seek.entryAtOrAfter query inclusive).Accepts key) (stored : t.StoresKey key)
    (nothing : seek entries query inclusive = none)
    : ∃ high ∈ t.high p, (compare high.key key).isLE := by
  by_contra beyond
  push Not at beyond
  obtain ⟨entry, inside, equal⟩ := inv.mem_of_beginsBy member begins
    (fun high isHigh => Std.OrientedCmp.lt_of_not_isLE (beyond high isHigh)) stored
  rw [Tree.entries, kind] at inside
  have accepted := seek_accepts accepts equal
  simpa [accepted] using List.find?_eq_none.mp nothing entry inside

/-- A section of the lookup does not go past an accepted key that is stored. -/
theorem Effect.approaches (effect : Effect N t shape latched upgraded pc t' pc')
    (inv : Inv N t shape) (three : 3 ≤ N) (ok : PcOk t shape pc) {c : Nat} {seek : Seek K}
    (isSeek : pc.seek = some (c, seek)) (accepts : seek.Accepts key) (stored : t.StoresKey key)
    (approaches : pc.Approaches t key)
    : pc'.Approaches t' key := by
  cases effect with
  | read same reads =>
      subst same
      have begins {p : PageId} {c' : Nat} {query : Query K} {inclusive : Bool}
          (member : p ∈ shape.row 0)
          (source
            : pc = .leafRead (.read (.entryAtOrAfter c' query inclusive)) p
                ∧ Covers (t'.low p) (t'.high p) query
              ∨ pc = .seekRight c' query inclusive p)
          : t'.BeginsBy p key ∧ (Seek.entryAtOrAfter query inclusive).Accepts key := by
        rcases source with ⟨rfl, covers⟩ | rfl
        · cases isSeek
          exact ⟨Tree.beginsBy_of_covers covers accepts, accepts⟩
        · cases isSeek
          obtain ⟨s, resolves, begins⟩ := approaches
          obtain rfl := resolves.eq_of_settled (inv.active member).2
          exact ⟨begins, accepts⟩
      cases reads with
      | seekFound member kind found source =>
          obtain ⟨begins, accepts⟩ := begins member source
          exact ⟨_, rfl, inv.seek_le member kind begins accepts stored found⟩
      | seekNext member kind nothing points inRow resolves fences source =>
          obtain ⟨begins, accepts⟩ := begins member source
          obtain ⟨high, isHigh, le⟩ :=
            inv.ends_of_seek_none member kind begins accepts stored nothing
          refine ⟨_, resolves, fun low isLow => ?_⟩
          rw [← fences, isHigh] at isLow
          obtain rfl := Option.some.inj isLow
          exact le
      | seekEnd member kind nothing ends source =>
          obtain ⟨begins, accepts⟩ := begins member source
          obtain ⟨high, isHigh, -⟩ :=
            inv.ends_of_seek_none member kind begins accepts stored nothing
          rw [ends] at isHigh
          cases isHigh
      | seekForward retired =>
          obtain ⟨s, resolves, begins⟩ := approaches
          exact ⟨s, resolves.of_forward retired, begins⟩
      | @firstFound consumer p entries member kind stop =>
          cases consumer with
          | none => cases isSeek
          | some consumer =>
              obtain ⟨s, inRow, low, resolves⟩ := ok
              obtain rfl := resolves.eq_of_settled (inv.active member).2
              have first := inv.isFirst
              rw [inv.records_head? three member low, Tree.entries, kind] at first
              obtain ⟨entry, stores, equal⟩ := stored
              cases isHead : entries.head? with
              | none =>
                  simp only [NodeKind.entries, isHead] at first
                  exact absurd stores (first entry)
              | some head =>
                  simp only [NodeKind.entries, isHead] at first
                  refine ⟨head, rfl, ?_⟩
                  rw [← compare_congr_right equal]
                  exact first.2 entry stores
      | @firstNext consumer | @firstForward consumer | @leftmostFound consumer => trivial
      | _ => trivial
  | write writes =>
      cases writes <;> cases isSeek
  | insert inserts => cases inserts <;> cases isSeek
  | remove removes => cases removes <;> cases isSeek
  | repair repairs => cases repairs <;> cases isSeek

end

-----------------------------------------------------------------------------------------
-- The cursor's state
-----------------------------------------------------------------------------------------

/-- A call of `next` begins with the lookup that the cursor's state asks for. -/
theorem Cursor.begin_seeking {cursor begun : Cursor K} {seek : Seek K}
    (begins : cursor.begin = .ok (begun, seek)) (unfinished : cursor.isFinished = false)
    : begun.isFinished = false ∧ begun.seeking = cursor.seeking := by
  cases cursor with
  | iter last finished =>
      obtain rfl : finished = false := unfinished
      cases last <;> cases begins <;> exact ⟨rfl, rfl⟩
  | range start stop last started finished =>
      obtain rfl : finished = false := unfinished
      cases started with
      | false => cases begins; cases last <;> cases start <;> exact ⟨rfl, rfl⟩
      | true =>
          cases last with
          | none => cases begins
          | some last => cases begins; exact ⟨rfl, rfl⟩

/-- A candidate that is not past an admitted key is yielded; it has that key, or the cursor
goes on below the key.
-/
theorem Cursor.finish_accepts {cursor : Cursor K} {key : K} {found : Option (Entry K V)}
    (begun : cursor.Begun) (admits : cursor.stop.AdmitsTo key)
    (approaches : ∃ entry ∈ found, (compare entry.key.key key).isLE)
    : (∃ entry, (cursor.finish found).2 = some entry ∧ compare entry.key.key key = .eq)
      ∨ (cursor.finish found).1.isFinished = false
        ∧ (cursor.finish found).1.seeking.Accepts key := by
  obtain ⟨entry, rfl, le⟩ := approaches
  obtain ⟨yields, unfinished, seeking⟩ : (cursor.finish (some entry)).2 = some entry
      ∧ (cursor.finish (some entry)).1.isFinished = false
      ∧ (cursor.finish (some entry)).1.seeking
        = .entryAtOrAfter (.ofKey entry.key.key) false := by
    cases cursor with
    | iter last finished => exact ⟨rfl, begun, rfl⟩
    | range start stop last started finished =>
        have inside := insideEndBound_iff.mpr (admits.mono le)
        simp only [Cursor.stop] at inside
        rw [Cursor.finish, if_pos inside]
        cases start <;> exact ⟨rfl, begun.2, rfl⟩
  cases order : compare entry.key.key key with
  | eq => exact .inl ⟨entry, yields, order⟩
  | lt => exact .inr ⟨unfinished, by rw [seeking]; exact .inl order⟩
  | gt => rw [order] at le; cases le

/-- The cursor has not gone past the key. -/
structure Awaits (s : System ι K V) (θ : ι) (c : Nat) (key : K) : Prop where
  unfinished : ((s.thread θ).cursors c).isFinished = false
  accepts : ((s.thread θ).cursors c).seeking.Accepts key
  approaches
    : ∀ call pc seek,
        (s.thread θ).status = .running call pc → pc.seek = some (c, seek)
        → pc.Approaches s.tree key

/-- A cursor that has not moved has not gone past any key within its bounds. -/
theorem Cursor.Created.accepts {cursor : Cursor K} (created : cursor.Created) {key : K}
    (admits : cursor.start.AdmitsFrom key)
    : cursor.isFinished = false ∧ cursor.seeking.Accepts key := by
  cases created with
  | iter => exact ⟨rfl, trivial⟩
  | range start stop =>
      refine ⟨rfl, ?_⟩
      cases start with
      | unbounded => trivial
      | excluded start => exact .inl admits
      | included start =>
          have notBelow : start.cmp key ≠ .gt := admits
          show start.cmp key = .lt ∨ true = true ∧ start.cmp key = .eq
          cases order : start.cmp key with
          | lt => exact .inl rfl
          | eq => exact .inr ⟨rfl, rfl⟩
          | gt => exact absurd order notBelow

variable [DecidableEq ι] {N : PageCapacity} {s s' : System ι K V} {shape : Shape} {θ : ι}
  {c : Nat} {key : K} {label : Label ι K V}

-----------------------------------------------------------------------------------------
-- The step that moves a record behind the cursor
-----------------------------------------------------------------------------------------

/-- The thread's cursor waits to go on at a leaf whose first record has the key, and another
thread's removal is about to lend that record to the leaf's left neighbour.
-/
def MovesBehind (N : PageCapacity) (θ : ι) (c : Nat) (key : K)
    (transition : Transition (System ι K V) (Label ι K V))
    : Prop :=
  ∃ call query inclusive node leaf,
    (transition.source.thread θ).status = .running call (.seekRight c query inclusive node)
    ∧ Resolves transition.source.tree.forward node leaf
    ∧ (∃ entry ∈ (transition.source.tree.entries leaf).head?,
        compare entry.key.key key = .eq)
    ∧ ∃ other upgraded removal sought parent child,
        transition.label = .pass other true upgraded
        ∧ (transition.source.thread other).status
          = .running removal (.removeAttempt sought parent)
        ∧ BorrowsFromRight N.size transition.source.tree sought parent child leaf

omit [DecidableEq ι] in
/-- Without both latches on the siblings, the branch retries. -/
theorem BorrowsFromRight.unlatched {N : Nat} {t : Tree K V} {query : Query K}
    {p child right : PageId} (branch : BorrowsFromRight N t query p child right)
    : t.removeAttempt N query p false = .ok (t, .shrinkRoot query none) := by
  obtain ⟨keys, rest, kind, index⟩ := branch.slots
  have several : ¬ (child :: right :: rest).length < 2 := by simp
  have childSlot : Array.index (child :: right :: rest) 0 = .ok child := rfl
  have rightSlot : Array.index (child :: right :: rest) 1 = .ok right := rfl
  simp only [Tree.removeAttempt, branch.routed, ok_bind, if_neg branch.safe, kind, index,
    Nat.lt_irrefl, if_false, if_neg several, childSlot, rightSlot, if_true]
  rfl

/-- A section of another thread leaves the cursor before the key, unless it moves the key's
record behind the cursor.
-/
theorem approaches_of_other {other : ι} {latched upgraded : Bool} {call : Call K V}
    {pc pc' waiting : Pc K V} {t' : Tree K V} {waitingCall : Call K V} {seek : Seek K}
    (ok : SystemOk N s shape)
    (passed : SectionStep N s shape other latched upgraded s' call pc t' pc')
    (running : (s.thread θ).status = .running waitingCall waiting)
    (isSeek : waiting.seek = some (c, seek)) (stored : s.tree.StoresKey key)
    (stays : ¬ MovesBehind N θ c key ⟨s, .pass other latched upgraded, s'⟩)
    (approaches : waiting.Approaches s.tree key)
    : waiting.Approaches t' key := by
  cases waiting with
  | seekRight c' query inclusive node =>
      cases isSeek
      obtain ⟨leaf, inRow, resolves⟩ := (ok.thread θ).pc _ _ running
      obtain ⟨leaf', resolves', begins⟩ := approaches
      obtain rfl := resolves.unique resolves'
      have moves := passed.effect.leadsBefore ok.inv N.three_le inRow resolves begins stored
      by_cases idle : latched = false ∧ ∃ sought parent child,
          pc = .removeAttempt sought parent
          ∧ BorrowsFromRight N.size s.tree sought parent child leaf
      · -- A try-latch has failed, and nothing moves.
        obtain ⟨rfl, sought, parent, child, rfl, branch⟩ := idle
        have result := passed.result
        rw [Tree.latchedSection, branch.unlatched] at result
        cases result
        exact ⟨leaf, resolves, begins⟩
      · refine moves (fun sought parent child isRemoval branch entry isHead equal => ?_)
        cases latched with
        | false => exact idle ⟨rfl, sought, parent, child, isRemoval, branch⟩
        | true =>
            exact stays ⟨waitingCall, query, inclusive, node, leaf, running, resolves,
              ⟨entry, isHead, equal⟩, other, upgraded, call, sought, parent, child, rfl,
              isRemoval ▸ passed.running, branch⟩
  | candidate => cases isSeek
  | _ => trivial

omit [DecidableEq ι] in
theorem Call.begin_approaches (call : Call K V) (cursors : Nat → Cursor K) (t : Tree K V)
    (key : K)
    : (call.begin cursors).2.seek = none ∨ (call.begin cursors).2.Approaches t key := by
  cases call with
  | next cursor =>
      rw [Call.begin]
      split
      · exact .inl rfl
      · rename_i begun seek _
        cases seek <;> exact .inr trivial
  | _ => exact .inr trivial

/-- Every step leaves the cursor before the key, unless it moves the key's record behind the
cursor.
-/
theorem Awaits.approaches_of_step (awaits : Awaits s θ c key) (ok : SystemOk N s shape)
    (step : (System.transitions ι K V N).step s label s') (stored : s.tree.StoresKey key)
    (stays : ¬ MovesBehind N θ c key ⟨s, label, s'⟩)
    : ∀ call pc seek,
        (s'.thread θ).status = .running call pc → pc.seek = some (c, seek)
        → pc.Approaches s'.tree key := by
  intro call pc seek running isSeek
  by_cases mine : label.owner = θ
  · cases label with
    | invoke other call' =>
        obtain rfl : other = θ := mine
        cases step with
        | invoke idle =>
            rw [System.setThread_same] at running
            cases running
            rcases call.begin_approaches (s.thread other).cursors s.tree key with none | approaches
            · rw [none] at isSeek
              cases isSeek
            · exact approaches
    | respond other call' response =>
        obtain rfl : other = θ := mine
        cases step with
        | respond done =>
            rw [System.setThread_same] at running
            cases running
    | pass other latched upgraded =>
        obtain rfl : other = θ := mine
        obtain ⟨call', before, t', after, passed⟩ := ok.section_step step
        have tree : s'.tree = t' := by rw [passed.target]
        rw [passed.thread_eq] at running
        rcases passed.effect.seek_eq with ⟨same, settled⟩ | ⟨_, _, found, _, rfl⟩
        · rw [Thread.resume_eq _ _ settled] at running
          cases running
          rw [same] at isSeek
          obtain ⟨-, seeking⟩ := (ok.thread other).seeking _ _ c seek passed.running isSeek
          rw [tree]
          exact passed.effect.approaches ok.inv N.three_le
            ((ok.thread other).pc _ _ passed.running) isSeek (seeking ▸ awaits.accepts) stored
            (awaits.approaches _ _ seek passed.running isSeek)
        · cases running
          cases isSeek
  · have same := thread_of_step step mine
    rw [same] at running
    have approaches := awaits.approaches call pc seek running isSeek
    cases label with
    | invoke | respond => cases step; exact approaches
    | pass other latched upgraded =>
        obtain ⟨call', before, t', after, passed⟩ := ok.section_step step
        have tree : s'.tree = t' := by rw [passed.target]
        rw [tree]
        exact approaches_of_other ok passed running isSeek stored stays approaches

/-- In every other step the cursor yields the key's record, or still has it ahead. -/
theorem Awaits.step (awaits : Awaits s θ c key) (ok : SystemOk N s shape)
    (step : (System.transitions ι K V N).step s label s')
    (admits : ((s.thread θ).cursors c).stop.AdmitsTo key) (stored : s.tree.StoresKey key)
    (stays : ¬ MovesBehind N θ c key ⟨s, label, s'⟩)
    {result : Option (Option (Entry K V))} (moves : CursorStep N s shape θ c s' result)
    : (∃ entry, result = some (some entry) ∧ compare entry.key.key key = .eq)
      ∨ Awaits s' θ c key := by
  have approaches := awaits.approaches_of_step ok step stored stays
  cases moves with
  | quiet same =>
      exact .inr ⟨by rw [same]; exact awaits.unfinished, by rw [same]; exact awaits.accepts,
        approaches⟩
  | exhausted finished =>
      rw [awaits.unfinished] at finished
      cases finished
  | begins unfinished begins =>
      obtain ⟨still, seeking⟩ := Cursor.begin_seeking begins unfinished
      exact .inr ⟨still, by rw [seeking]; exact awaits.accepts, approaches⟩
  | finishes passed isSeek begun after =>
      have found := passed.effect.approaches ok.inv N.three_le
        ((ok.thread θ).pc _ _ passed.running) isSeek awaits.accepts stored
        (awaits.approaches _ _ _ passed.running isSeek)
      rcases Cursor.finish_accepts begun admits found with ⟨entry, yields, equal⟩ | goes
      · exact .inl ⟨entry, by rw [yields], equal⟩
      · exact .inr ⟨by rw [after]; exact goes.1, by rw [after]; exact goes.2, approaches⟩

/-- A record with the key is in the map from the beginning of the run to its end. -/
def PresentThroughout (key : K) (trace : Trace ι K V) : Prop :=
  ∀ transition ∈ trace, transition.source.tree.StoresKey key ∧ transition.target.tree.StoresKey key

/-- One of the results is a record with the key. -/
def Yields (results : List (Option (Entry K V))) (key : K) : Prop :=
  ∃ entry, some entry ∈ results ∧ compare entry.key.key key = .eq

variable {start finish : System ι K V} {trace : Trace ι K V}

/-- Along a run in which no step moves the record behind the cursor, the cursor has yielded
the record or still has it ahead.
-/
theorem yields_or_awaits (reached : (System.transitions ι K V N).Reachable start)
    (run : (System.transitions ι K V N).Run start trace finish)
    (idle : (start.thread θ).status = .idle)
    (created : ((start.thread θ).cursors c).Created)
    (admits : ((start.thread θ).cursors c).Admits key)
    (present : PresentThroughout key trace)
    (stays : ∀ transition ∈ trace, ¬ MovesBehind N θ c key transition)
    : Yields (finish.given θ c trace) key ∨ Awaits finish θ c key := by
  refine run.induct (I := fun trace s =>
    PresentThroughout key trace → (∀ transition ∈ trace, ¬ MovesBehind N θ c key transition) →
    Yields (s.given θ c trace) key ∨ Awaits s θ c key) ?_ ?_ present stays
  · rintro - -
    obtain ⟨unfinished, accepts⟩ := created.accepts admits.1
    refine .inr ⟨unfinished, accepts, fun call pc seek running => ?_⟩
    rw [idle] at running
    cases running
  · intro trace s label s' earlier before step present stays
    obtain ⟨shape, ok⟩ := reachable_ok (reached.run earlier)
    obtain ⟨result, moves, given⟩ := cursorStep_of_step ok step θ c trace
    have last : (⟨s, label, s'⟩ : Transition (System ι K V) (Label ι K V))
        ∈ trace ++ [⟨s, label, s'⟩] := by simp
    rw [given]
    rcases before (fun transition member => present transition (List.mem_append_left _ member))
        (fun transition member => stays transition (List.mem_append_left _ member)) with
      ⟨entry, member, equal⟩ | awaits
    · exact .inl ⟨entry, List.mem_append_left _ member, equal⟩
    · have stop := (tracks_of_run reached earlier idle created).stop
      rcases awaits.step ok step (stop ▸ admits.2) (present _ last).1 (stays _ last) moves with
        ⟨entry, rfl, equal⟩ | awaits
      · exact .inl ⟨entry, by simp, equal⟩
      · exact .inr awaits

/-- A cursor that has returned `None` has yielded every record within its bounds that was in
the map all the time, when no step moved the record behind the cursor.
-/
theorem stable_record_yielded_when (reached : (System.transitions ι K V N).Reachable start)
    (run : (System.transitions ι K V N).Run start trace finish)
    (idle : (start.thread θ).status = .idle)
    (created : ((start.thread θ).cursors c).Created)
    (admits : ((start.thread θ).cursors c).Admits key)
    (present : PresentThroughout key trace)
    (stays : ∀ transition ∈ trace, ¬ MovesBehind N θ c key transition)
    (ended : none ∈ resultsOf θ c trace)
    : Yields (resultsOf θ c trace) key := by
  have tracks := tracks_of_run reached run idle created
  have endedGiven : none ∈ finish.given θ c trace := List.mem_append_left _ ended
  rcases yields_or_awaits reached run idle created admits present stays with
    ⟨entry, member, equal⟩ | awaits
  · refine ⟨entry, ?_, equal⟩
    rcases List.mem_append.mp member with given | pending
    · exact given
    · obtain ⟨-, -, follows⟩ := List.pairwise_append.mp tracks.increasing
      obtain ⟨previous, isPrevious, -⟩ := follows none ended (some entry) pending entry rfl
      cases isPrevious
  · obtain ⟨entry, isEntry, -⟩ := tracks.last awaits.unfinished none endedGiven
    cases isEntry

-----------------------------------------------------------------------------------------
-- A record that moves behind the cursor
-----------------------------------------------------------------------------------------

/-- The thread is idle, and its cursor is an iterator that has not moved. -/
def System.isBefore (s : System ι K V) (θ : ι) (c : Nat) : Bool :=
  match (s.thread θ).status, (s.thread θ).cursors c with
  | .idle, .iter none false => true
  | _, _ => false

omit [DecidableEq ι] in
theorem System.before_of_isBefore (before : s.isBefore θ c = true)
    : (s.thread θ).status = .idle ∧ (s.thread θ).cursors c = .newIter := by
  rw [isBefore] at before
  split at before
  · exact ⟨by assumption, by assumption⟩
  · cases before

/-- The thread waits to go on at a leaf. -/
def System.seeks (s : System ι K V) (θ : ι) : Bool :=
  match (s.thread θ).status with
  | .running _ (.seekRight _ _ _ _) => true
  | _ => false

/-- While the thread waits to go on at a leaf, no other thread takes a step. -/
theorem not_movesBehind_of_all
    (all
      : trace.all
          (fun transition => !transition.source.seeks θ || transition.label.owner = θ) = true)
    : ∀ transition ∈ trace, ¬ MovesBehind N θ c key transition := by
  rintro transition member ⟨call, query, inclusive, node, leaf, running, -, -, other, upgraded,
    removal, sought, parent, child, isPass, removing, -⟩
  have found := List.all_eq_true.mp all transition member
  rw [System.seeks, running, isPass] at found
  obtain rfl : other = θ := of_decide_eq_true found
  rw [running] at removing
  cases removing

omit [DecidableEq ι] in
theorem presentThroughout_of_all
    (all
      : trace.all (fun transition =>
          transition.source.tree.storesKey key && transition.target.tree.storesKey key) = true)
    : PresentThroughout key trace := by
  intro transition member
  have both := List.all_eq_true.mp all transition member
  rw [Bool.and_eq_true] at both
  exact ⟨Tree.exists_of_storesKey both.1, Tree.exists_of_storesKey both.2⟩

omit [TotalOrd K] in
theorem none_mem_of_map {results : List (Option (Entry K V))}
    (ended : none ∈ results.map (Option.map Entry.record))
    : none ∈ results := by
  obtain ⟨result, member, isNone⟩ := List.mem_map.mp ended
  rwa [Option.map_eq_none_iff.mp isNone] at member

theorem Yields.map {results : List (Option (Entry K V))} (yields : Yields results key)
    : ∃ record, some record ∈ results.map (Option.map Entry.record)
        ∧ compare record.1 key = .eq := by
  obtain ⟨entry, member, equal⟩ := yields
  exact ⟨entry.record, List.mem_map.mpr ⟨some entry, member, rfl⟩, equal⟩

/-- An iteration during which another thread removes the first record. -/
theorem stable_record_yielded_when_removed
    : ∃ (start finish : System (Fin 2) Nat Nat) (trace : Trace (Fin 2) Nat Nat),
        (System.transitions (Fin 2) Nat Nat .smallest).Run start trace finish
        ∧ (resultsOf 1 0 trace).map (Option.map Entry.record)
          = [some (1, 1), some (2, 2), some (3, 3), some (4, 4), none]
        ∧ Yields (resultsOf 1 0 trace) 2 := by
  have plays : (System.rehearse (K := Nat) (V := Nat) .smallest [(0 : Fin 2), 1]
      ([1, 2, 3].flatMap (fun key => Move.whole 0 (.insert key key) 3)
        ++ Move.whole 0 (.insert 4 4) 8)
      (Move.whole 1 (.next 0) 4 ++ Move.whole 0 (.remove (.ofKey 1)) 9
        ++ Move.whole 1 (.next 0) 3 ++ Move.whole 1 (.next 0) 4 ++ Move.whole 1 (.next 0) 3
        ++ Move.whole 1 (.next 0) 3)).map (fun played =>
          (
            (resultsOf 1 0 played.2.1).map (Option.map Entry.record),
            played.1.isBefore 1 0
              && played.2.1.all (fun transition =>
                transition.source.tree.storesKey 2 && transition.target.tree.storesKey 2)
              && played.2.1.all (fun transition =>
                !transition.source.seeks 1 || transition.label.owner = 1)
          ))
      = some ([some (1, 1), some (2, 2), some (3, 3), some (4, 4), none], true) := by
    decide +kernel
  obtain ⟨⟨start, trace, finish⟩, rehearsed, checks⟩ := Option.map_eq_some_iff.mp plays
  obtain ⟨results, checks⟩ := Prod.mk.injEq _ _ _ _ ▸ checks
  simp only [Bool.and_eq_true] at checks
  obtain ⟨⟨before, present⟩, stays⟩ := checks
  obtain ⟨reached, run⟩ := System.run_of_rehearse (by decide) rehearsed
  obtain ⟨idle, created⟩ := System.before_of_isBefore before
  have ended : none ∈ resultsOf 1 0 trace := none_mem_of_map (by rw [results]; decide)
  exact ⟨start, finish, trace, run, results,
    stable_record_yielded_when reached run idle (created ▸ .iter)
      (created ▸ ⟨trivial, trivial⟩) (presentThroughout_of_all present)
      (not_movesBehind_of_all stays) ended⟩

/-- The iterator waits to go on at the second leaf when a removal lends that leaf's first
record to the first leaf: the iterator ends without that record, which is stored all the time.
-/
theorem stable_record_not_yielded
    : ∃ (start finish : System (Fin 2) Nat Nat) (trace : Trace (Fin 2) Nat Nat),
        (System.transitions (Fin 2) Nat Nat .smallest).Reachable start
        ∧ (System.transitions (Fin 2) Nat Nat .smallest).Run start trace finish
        ∧ (start.thread 1).status = .idle
        ∧ ((start.thread 1).cursors 0).Created
        ∧ ((start.thread 1).cursors 0).Admits 2
        ∧ PresentThroughout 2 trace
        ∧ none ∈ resultsOf 1 0 trace
        ∧ ¬ Yields (resultsOf 1 0 trace) 2 := by
  have plays : (System.rehearse (K := Nat) (V := Nat) .smallest [(0 : Fin 2), 1]
      ([1, 2, 3].flatMap (fun key => Move.whole 0 (.insert key key) 3)
        ++ Move.whole 0 (.insert 4 4) 8)
      (Move.whole 1 (.next 0) 4 ++ [.invoke 1 (.next 0), .pass 1, .pass 1, .pass 1]
        ++ Move.whole 0 (.remove (.ofKey 1)) 9 ++ [.pass 1, .respond 1]
        ++ Move.whole 1 (.next 0) 3 ++ Move.whole 1 (.next 0) 3)).map (fun played =>
          (
            (resultsOf 1 0 played.2.1).map (Option.map Entry.record),
            played.1.isBefore 1 0
              && played.2.1.all (fun transition =>
                transition.source.tree.storesKey 2 && transition.target.tree.storesKey 2)
          ))
      = some ([some (1, 1), some (3, 3), some (4, 4), none], true) := by
    decide +kernel
  obtain ⟨⟨start, trace, finish⟩, rehearsed, checks⟩ := Option.map_eq_some_iff.mp plays
  obtain ⟨results, checks⟩ := Prod.mk.injEq _ _ _ _ ▸ checks
  simp only [Bool.and_eq_true] at checks
  obtain ⟨before, present⟩ := checks
  obtain ⟨reached, run⟩ := System.run_of_rehearse (by decide) rehearsed
  obtain ⟨idle, created⟩ := System.before_of_isBefore before
  refine ⟨start, finish, trace, reached, run, idle, created ▸ .iter,
    created ▸ ⟨trivial, trivial⟩, presentThroughout_of_all present,
    none_mem_of_map (by rw [results]; decide), ?_⟩
  intro yields
  obtain ⟨record, member, equal⟩ := yields.map
  rw [results] at member
  simp only [List.mem_cons, Option.some.injEq, List.not_mem_nil, reduceCtorEq, or_false]
    at member
  rcases member with rfl | rfl | rfl <;> cases equal

end BLink
