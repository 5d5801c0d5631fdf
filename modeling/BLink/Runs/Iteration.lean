import BLink.Runs.Executions

/-! What iterators and ranges yield while other threads change the tree.
A cursor remembers the last key it yielded, and every lookup it makes is for a record above
that key; so its yields increase, stay inside its bounds, and end for good.
-/

namespace BLink

open Library

variable {ι K V : Type} [TotalOrd K]

/-- The keys that a lookup may come back with. -/
def Seek.Accepts : Seek K → K → Prop
  | .exhausted, _ => False
  | .firstEntry, _ => True
  | .entryAtOrAfter key inclusive, stored =>
      key.cmp stored = .lt ∨ inclusive = true ∧ key.cmp stored = .eq

/-- A lookup ends with a record that is stored at that moment and that it may come back with.
-/
theorem Effect.candidate {N : Nat} {t t' : Tree K V} {shape : Shape} {upgraded : Bool}
    {pc pc' : Pc K V} (effect : Effect N t shape latched upgraded pc t' pc') (inv : Inv N t shape)
    {cursor : Nat} {seek : Seek K} {found : Option (Entry K V)}
    (isSeek : pc.seek = some (cursor, seek)) (ends : pc' = .candidate cursor found)
    : ∀ entry ∈ found, seek.Accepts entry.key.key ∧ t.Stores entry := by
  have stored {p : PageId} {entries : List (Entry K V)} {entry : Entry K V}
      (member : p ∈ shape.row 0) (kind : (t.page p).kind = .leaf entries)
      (inside : entry ∈ entries) : t.Stores entry :=
    ⟨p, inv.active member, by rwa [Tree.entries, kind]⟩
  cases effect with
  | read same reads =>
      cases reads with
      | @seekFound cursor' key inclusive p entries entry pc member kind sought source =>
          cases ends
          have accepted := List.find?_some sought
          rcases source with ⟨rfl, -⟩ | rfl <;>
          · cases isSeek
            rintro _ ⟨⟩
            exact ⟨by simpa [Seek.Accepts] using accepted,
              stored member kind (List.mem_of_find?_eq_some sought)⟩
      | seekEnd => cases ends; rintro _ ⟨⟩
      | @firstFound consumer p entries member kind stop =>
          cases consumer with
          | none => cases isSeek
          | some cursor =>
              cases ends
              cases isSeek
              intro entry isHead
              exact ⟨trivial, stored member kind (List.mem_of_mem_head? isHead)⟩
      | _ => cases ends
  | write writes => cases writes <;> cases ends
  | insert inserts =>
      cases inserts with
      | @repairSkipped _ _ _ _ target | @repaired _ _ _ _ _ target =>
          cases target <;> cases ends
      | _ => cases ends
  | remove removes =>
      cases removes with
      | @rootStays _ result => cases result <;> cases ends
      | _ => cases ends
  | repair repairs => cases repairs <;> cases ends

/-- The key is not below the bound, as a start. -/
def Bound.AdmitsFrom : Bound (Query K) → K → Prop
  | .included start, key => start.cmp key ≠ .gt
  | .excluded start, key => start.cmp key = .lt
  | .unbounded, _ => True

/-- The key is not above the bound, as an end. -/
def Bound.AdmitsTo : Bound (Query K) → K → Prop
  | .included stop, key => stop.cmp key ≠ .lt
  | .excluded stop, key => stop.cmp key = .gt
  | .unbounded, _ => True

/-- Above an admitted key every key is admitted by a start bound. -/
theorem Bound.AdmitsFrom.mono {start : Bound (Query K)} {lower upper : K}
    (admits : start.AdmitsFrom lower) (le : (compare lower upper).isLE)
    : start.AdmitsFrom upper := by
  cases start with
  | unbounded => trivial
  | included start => exact fun above => admits (start.gt_of_le above le)
  | excluded start => exact start.lt_of_le admits le

/-- Below an admitted key every key is admitted by an end bound. -/
theorem Bound.AdmitsTo.mono {stop : Bound (Query K)} {lower upper : K}
    (admits : stop.AdmitsTo upper) (le : (compare lower upper).isLE)
    : stop.AdmitsTo lower := by
  cases stop with
  | unbounded => trivial
  | included stop => exact fun below => admits (stop.lt_of_le below le)
  | excluded stop => exact stop.gt_of_le admits le

/-- The test of a candidate against a range's upper bound. -/
theorem insideEndBound_iff {key : KeyHandle K} {stop : Bound (Query K)}
    : insideEndBound key stop = true ↔ stop.AdmitsTo key.key := by
  cases stop with
  | unbounded => simp [insideEndBound, Bound.AdmitsTo]
  | included stop =>
      simp only [insideEndBound, Bound.AdmitsTo]
      cases stop.cmp key.key <;> simp [Ordering.swap]
  | excluded stop =>
      simp only [insideEndBound, Bound.AdmitsTo]
      cases stop.cmp key.key <;> simp [Ordering.swap]

/-- The start bound of a range. -/
def Cursor.start : Cursor K → Bound (Query K)
  | .iter _ _ => .unbounded
  | .range start _ _ _ _ => start

/-- The end bound of a range. -/
def Cursor.stop : Cursor K → Bound (Query K)
  | .iter _ _ => .unbounded
  | .range _ stop _ _ _ => stop

/-- The last key that a cursor yielded. -/
def Cursor.last : Cursor K → Option (KeyHandle K)
  | .iter last _ | .range _ _ last _ _ => last

/-- The key lies between the cursor's bounds. -/
def Cursor.Admits (cursor : Cursor K) (key : K) : Prop :=
  cursor.start.AdmitsFrom key ∧ cursor.stop.AdmitsTo key

-----------------------------------------------------------------------------------------
-- The state of a cursor and what it has yielded
-----------------------------------------------------------------------------------------

/-- What the next result may be after an earlier one: a greater record, or the end. -/
def Follows (earlier later : Option (Entry K V)) : Prop :=
  ∀ next ∈ later, ∃ previous ∈ earlier, previous.key < next.key

/-- The cursor, which began as `origin`, agrees with the results that it has given. -/
structure Tracks (origin cursor : Cursor K) (results : List (Option (Entry K V))) : Prop where
  start : cursor.start = origin.start
  stop : cursor.stop = origin.stop
  increasing : results.Pairwise Follows
  inside : ∀ result ∈ results, ∀ entry ∈ result, origin.Admits entry.key.key
  last
    : cursor.isFinished = false
      → ∀ result ∈ results, ∃ entry ∈ result, ∃ last ∈ cursor.last, entry.key ≤ last
  above : ∀ last ∈ cursor.last, origin.start.AdmitsFrom last.key

variable {origin cursor : Cursor K} {results : List (Option (Entry K V))}

theorem Tracks.created (created : cursor.Created)
    : Tracks cursor cursor ([] : List (Option (Entry K V))) where
  start := rfl
  stop := rfl
  increasing := .nil
  inside := by simp
  last := by simp
  above := by cases created <;> rintro _ ⟨⟩

/-- Another result after those that the cursor has given. -/
theorem Tracks.snoc {cursor' : Cursor K} {result : Option (Entry K V)}
    (tracks : Tracks origin cursor results) (start : cursor'.start = cursor.start)
    (stop : cursor'.stop = cursor.stop)
    (follows : ∀ earlier ∈ results, Follows earlier result)
    (inside : ∀ entry ∈ result, origin.Admits entry.key.key)
    (last
      : cursor'.isFinished = false
        → ∃ entry ∈ result, cursor'.last = some entry.key)
    (above : ∀ last ∈ cursor'.last, origin.start.AdmitsFrom last.key)
    : Tracks origin cursor' (results ++ [result]) where
  start := start.trans tracks.start
  stop := stop.trans tracks.stop
  increasing := by
    refine List.pairwise_append.mpr ⟨tracks.increasing, List.pairwise_singleton _ _, ?_⟩
    rintro earlier member later isLast
    obtain rfl := List.mem_singleton.mp isLast
    exact follows earlier member
  inside := by
    intro given member entry isEntry
    rcases List.mem_append.mp member with earlier | isLast
    · exact tracks.inside given earlier entry isEntry
    · obtain rfl := List.mem_singleton.mp isLast
      exact inside entry isEntry
  last := by
    intro unfinished given member
    obtain ⟨entry, isEntry, isLast⟩ := last unfinished
    rcases List.mem_append.mp member with earlier | isGiven
    · obtain ⟨previous, isPrevious, less⟩ := follows given earlier entry isEntry
      exact ⟨previous, isPrevious, entry.key, isLast, le_of_lt less⟩
    · obtain rfl := List.mem_singleton.mp isGiven
      exact ⟨entry, isEntry, entry.key, isLast, le_rfl⟩
  above := above

/-- An exhausted cursor gives `None`, now and for ever. -/
theorem Tracks.exhausted {cursor' : Cursor K} (tracks : Tracks origin cursor results)
    (start : cursor'.start = cursor.start) (stop : cursor'.stop = cursor.stop)
    (last : cursor'.last = cursor.last) (finished : cursor'.isFinished = true)
    : Tracks origin cursor' (results ++ [none]) := by
  refine tracks.snoc start stop ?_ nofun ?_ ?_
  · rintro earlier - _ ⟨⟩
  · intro unfinished
    rw [finished] at unfinished
    cases unfinished
  · rw [last]
    exact tracks.above

/-- The cursor yields a record above its last key and between its bounds. -/
theorem Tracks.yielded {cursor' : Cursor K} {entry : Entry K V}
    (tracks : Tracks origin cursor results) (unfinished : cursor.isFinished = false)
    (start : cursor'.start = cursor.start) (stop : cursor'.stop = cursor.stop)
    (greater : ∀ last ∈ cursor.last, last < entry.key)
    (admits : origin.Admits entry.key.key) (last : cursor'.last = some entry.key)
    : Tracks origin cursor' (results ++ [some entry]) := by
  refine tracks.snoc start stop ?_ ?_ (fun _ => ⟨entry, rfl, last⟩) ?_
  · rintro earlier member _ ⟨⟩
    obtain ⟨previous, isPrevious, latest, isLatest, le⟩ :=
      tracks.last unfinished earlier member
    exact ⟨previous, isPrevious, lt_of_le_of_lt le (greater latest isLatest)⟩
  · rintro _ ⟨⟩
    exact admits
  · rw [last]
    rintro _ ⟨⟩
    exact admits.1

/-- A call of `next` begins without a result, unless the cursor is finished. -/
theorem Tracks.begins {begun : Cursor K} {seek : Seek K}
    (tracks : Tracks origin cursor results) (begins : cursor.begin = .ok (begun, seek))
    (unfinished : cursor.isFinished = false)
    : Tracks origin begun results := by
  cases cursor with
  | iter last finished =>
      obtain rfl : finished = false := unfinished
      cases last <;> cases begins <;> exact tracks
  | range start stop last started finished =>
      obtain rfl : finished = false := unfinished
      cases started with
      | false =>
          cases begins
          exact ⟨tracks.start, tracks.stop, tracks.increasing, tracks.inside, tracks.last,
            tracks.above⟩
      | true =>
          cases last with
          | none => cases begins
          | some last => cases begins; exact tracks

/-- What a cursor's lookup accepts lies above the last key and the start bound. -/
theorem Tracks.seeking_spec (tracks : Tracks origin cursor results) {key : KeyHandle K}
    (accepted : cursor.seeking.Accepts key.key)
    : (∀ last ∈ cursor.last, last < key) ∧ origin.start.AdmitsFrom key.key := by
  have beyond {last : KeyHandle K} (isLast : cursor.last = some last)
      (accepted : (Seek.entryAtOrAfter (.ofKey last.key) false).Accepts key.key)
      : (∀ last ∈ cursor.last, last < key) ∧ origin.start.AdmitsFrom key.key := by
    have less : compare last.key key.key = .lt := by simpa [Seek.Accepts] using accepted
    refine ⟨?_, (tracks.above last isLast).mono (isLE_of_compare_lt less)⟩
    rw [isLast]
    rintro _ ⟨⟩
    exact less
  have start := tracks.start
  cases cursor with
  | iter last finished =>
      cases last with
      | some last => exact beyond rfl accepted
      | none =>
          rw [← start]
          exact ⟨nofun, trivial⟩
  | range bound stop last started finished =>
      cases last with
      | some last => cases bound <;> exact beyond rfl accepted
      | none =>
          rw [← start]
          refine ⟨nofun, ?_⟩
          cases bound with
          | unbounded => trivial
          | included bound =>
              rcases accepted with less | ⟨-, equal⟩
              · simp [Cursor.start, Bound.AdmitsFrom, less]
              · simp [Cursor.start, Bound.AdmitsFrom, equal]
          | excluded bound =>
              rcases accepted with less | ⟨impossible, -⟩
              · exact less
              · cases impossible

/-- A call of `next` that began ends with the candidate of the cursor's lookup. -/
theorem Tracks.finish (tracks : Tracks origin cursor results) (begun : cursor.Begun)
    {found : Option (Entry K V)}
    (accepted : ∀ entry ∈ found, cursor.seeking.Accepts entry.key.key)
    : Tracks origin (cursor.finish found).1 (results ++ [(cursor.finish found).2]) := by
  cases found with
  | none => cases cursor <;> exact tracks.exhausted rfl rfl rfl rfl
  | some entry =>
      obtain ⟨greater, admits⟩ := tracks.seeking_spec (accepted entry rfl)
      have stop := tracks.stop
      cases cursor with
      | iter last finished =>
          refine tracks.yielded begun rfl rfl greater ⟨admits, ?_⟩ rfl
          rw [← stop]
          trivial
      | range bound stop' last started finished =>
          rw [Cursor.finish]
          split_ifs with inside
          · refine tracks.yielded begun.2 rfl rfl greater ⟨admits, ?_⟩ rfl
            rw [← stop]
            exact insideEndBound_iff.mp inside
          · exact tracks.exhausted rfl rfl rfl rfl

-----------------------------------------------------------------------------------------
-- The results of a cursor in a run
-----------------------------------------------------------------------------------------

/-- The result that the thread is about to return from the cursor's call. -/
def Status.result (cursor : Nat) : Status K V → Option (Option (Entry K V))
  | .running (.next other) (.done (.entry found)) => if other = cursor then some found else none
  | _ => none

variable [DecidableEq ι]

/-- The result that the thread returns from the cursor's call in a step. -/
def Label.result (θ : ι) (cursor : Nat) : Label ι K V → Option (Option (Entry K V))
  | .respond other call response =>
      if other = θ then (Status.running call (.done response)).result cursor else none
  | .invoke _ _ | .pass _ _ _ => none

/-- The results of the cursor's calls that have returned. -/
def resultsOf (θ : ι) (cursor : Nat) (trace : Trace ι K V) : List (Option (Entry K V)) :=
  trace.filterMap (fun transition => transition.label.result θ cursor)

/-- The results of the cursor's calls, with the one that is about to be returned. -/
def System.given (s : System ι K V) (θ : ι) (cursor : Nat) (trace : Trace ι K V)
    : List (Option (Entry K V)) :=
  resultsOf θ cursor trace ++ ((s.thread θ).status.result cursor).toList

variable {N : PageCapacity} {s s' : System ι K V} {shape : Shape} {θ : ι} {c : Nat}
  {trace : Trace ι K V}

/-- What a step does to a cursor of a thread, and the result that the cursor gives in it. -/
inductive CursorStep (N : PageCapacity) (s : System ι K V) (shape : Shape) (θ : ι) (c : Nat)
    (s' : System ι K V)
    : Option (Option (Entry K V)) → Prop
  | quiet (same : (s'.thread θ).cursors c = (s.thread θ).cursors c)
    : CursorStep N s shape θ c s' none
  | exhausted (finished : ((s.thread θ).cursors c).isFinished = true)
    (same : (s'.thread θ).cursors c = (s.thread θ).cursors c)
    : CursorStep N s shape θ c s' (some none)
  | begins {seek} (unfinished : ((s.thread θ).cursors c).isFinished = false)
    (begins : ((s.thread θ).cursors c).begin = .ok ((s'.thread θ).cursors c, seek))
    : CursorStep N s shape θ c s' none
  | finishes {latched upgraded pc t' found}
    (passed : SectionStep N s shape θ latched upgraded s' (.next c) pc t' (.candidate c found))
    (isSeek : pc.seek = some (c, ((s.thread θ).cursors c).seeking))
    (begun : ((s.thread θ).cursors c).Begun)
    (after : (s'.thread θ).cursors c = (((s.thread θ).cursors c).finish found).1)
    : CursorStep N s shape θ c s' (some (((s.thread θ).cursors c).finish found).2)

omit [DecidableEq ι] in
/-- A cursor's call has a lookup until it has its candidate. -/
theorem Pc.seek_of_serves {pc : Pc K V} (serves : pc.serves = some (.next c))
    (running : pc.isSettled = false)
    : ∃ seek, pc.seek = some (c, seek) := by
  cases pc with
  | leafRoot task | leafRead task =>
      cases task with
      | read task => cases task <;> cases serves; exact ⟨_, rfl⟩
      | write task => cases task <;> cases serves
  | leafWrite task => cases task <;> cases serves
  | leftmostRoot consumer | leftmostLeaf consumer | firstEntry consumer =>
      cases consumer <;> cases serves
      exact ⟨_, rfl⟩
  | seekRight => cases serves; exact ⟨_, rfl⟩
  | candidate => cases running
  | _ => cases serves

/-- A section of the thread goes on with its call, or ends a cursor's lookup. -/
theorem SectionStep.cursorStep {latched upgraded : Bool} {call : Call K V} {pc pc' : Pc K V}
    {t' : Tree K V} (step : SectionStep N s shape θ latched upgraded s' call pc t' pc')
    (ok : SystemOk N s shape) (c : Nat)
    : CursorStep N s shape θ c s' ((s'.thread θ).status.result c) := by
  have thread := step.thread_eq
  rcases step.effect.seek_eq with ⟨same, settled⟩ | ⟨other, seek, found, isSeek, rfl⟩
  · rw [Thread.resume_eq _ _ settled] at thread
    have silent : (s'.thread θ).status.result c = none := by
      rw [thread]
      cases pc' with
      | done response =>
          cases call with
          | next cursor =>
              obtain ⟨seek, isSeek⟩ := Pc.seek_of_serves (step.serves_eq ok)
                (((ok.thread θ).settled _ _ step.running).trans step.unfinished)
              rw [isSeek] at same
              cases same
          | _ => rfl
      | _ => cases call <;> rfl
    rw [silent]
    exact .quiet (by rw [thread])
  · obtain ⟨begun, seeking⟩ := (ok.thread θ).seeking call pc other seek step.running isSeek
    obtain rfl := step.serves ok _ rfl
    rw [Thread.resume] at thread
    by_cases mine : other = c
    · subst other
      have result : (s'.thread θ).status.result c
          = some (((s.thread θ).cursors c).finish found).2 := by
        rw [thread]
        simp [Status.result]
      rw [result]
      refine .finishes step (by rw [isSeek, seeking]) begun ?_
      rw [thread]
      exact Function.update_self ..
    · have result : (s'.thread θ).status.result c = none := by
        rw [thread]
        simp [Status.result, mine]
      rw [result]
      refine .quiet ?_
      rw [thread]
      exact Function.update_of_ne (Ne.symm mine) ..

/-- The invocation of a call begins the cursor's lookup, or leaves the cursor alone. -/
theorem cursorStep_of_invoke {call : Call K V} (ok : SystemOk N s shape)
    (idle : (s.thread θ).status = .idle)
    (thread
      : s'.thread θ
        = {
            status := .running call (call.begin (s.thread θ).cursors).2
            cursors := (call.begin (s.thread θ).cursors).1
          })
    (c : Nat)
    : CursorStep N s shape θ c s' ((s'.thread θ).status.result c) := by
  rw [thread]
  cases call with
  | next other =>
      have ready : ((s.thread θ).cursors other).Ready := by
        refine (ok.thread θ).ready other (fun _ _ _ running => ?_)
        rw [idle] at running
        cases running
      obtain ⟨begun, seek, begins, cases⟩ := Cursor.begin_ok ready
      by_cases mine : other = c
      · subst other
        have after : (s'.thread θ).cursors c = begun := by
          rw [thread]
          simp [Call.begin, begins]
        rcases cases with ⟨finished, rfl, rfl⟩ | ⟨unfinished, -, rfl⟩
        · simp only [Call.begin, begins, Status.result, if_true]
          exact .exhausted finished after
        · have silent : (Status.running (.next c) (Call.begin (s.thread θ).cursors
              (.next c : Call K V)).2).result c = none := by
            simp only [Call.begin, begins]
            cases seek : begun.seeking with
            | exhausted => exact absurd seek begun.seeking_ne_exhausted
            | firstEntry | entryAtOrAfter => rfl
          rw [silent]
          exact .begins unfinished (begins.trans (by rw [after]))
      · have silent (pc : Pc K V) : (Status.running (.next other) pc).result c = none := by
          cases pc with
          | done response => cases response <;> simp [Status.result, mine]
          | _ => rfl
        rw [silent]
        refine .quiet ?_
        rw [thread]
        simp only [Call.begin, begins]
        exact Function.update_of_ne (Ne.symm mine) ..
  | _ => exact .quiet (by rw [thread]; rfl)

/-- Every step adds to the cursor's results what the cursor gives in it. -/
theorem cursorStep_of_step {label : Label ι K V} (ok : SystemOk N s shape)
    (step : (System.transitions ι K V N).step s label s') (θ : ι) (c : Nat)
    (trace : Trace ι K V)
    : ∃ result,
        CursorStep N s shape θ c s' result
        ∧ s'.given θ c (trace ++ [⟨s, label, s'⟩]) = s.given θ c trace ++ result.toList := by
  have given (early late : Option (Option (Entry K V)))
      (labels : label.result θ c = early) (status : (s'.thread θ).status.result c = late)
      : s'.given θ c (trace ++ [⟨s, label, s'⟩])
        = resultsOf θ c trace ++ early.toList ++ late.toList := by
    cases early <;> simp [System.given, resultsOf, labels, status]
  by_cases mine : label.owner = θ
  · cases label with
    | invoke other call =>
        obtain rfl : other = θ := mine
        cases step with
        | invoke idle =>
            refine ⟨_, cursorStep_of_invoke ok idle (System.setThread_same ..) c, ?_⟩
            rw [given none _ rfl rfl, System.given, idle]
            rfl
    | pass other latched upgraded =>
        obtain rfl : other = θ := mine
        obtain ⟨call, pc, t', pc', passed⟩ := ok.section_step step
        refine ⟨_, passed.cursorStep ok c, ?_⟩
        have silent : (Status.running call pc).result c = none := by
          cases pc with
          | done => cases passed.unfinished
          | _ => cases call <;> rfl
        rw [given none _ rfl rfl, System.given, passed.running, silent]
    | respond other call response =>
        obtain rfl : other = θ := mine
        cases step with
        | respond done =>
            refine ⟨none, .quiet (by rw [System.setThread_same]), ?_⟩
            rw [given _ none (by rw [Label.result, if_pos rfl])
              (by rw [System.setThread_same]; rfl), System.given, done]
  · have same := thread_of_step step mine
    refine ⟨none, .quiet (by rw [same]), ?_⟩
    have silent : label.result θ c = none := by
      cases label with
      | respond other call response => exact if_neg mine
      | _ => rfl
    rw [given none _ silent rfl, System.given, same]
    simp

/-- One step of a cursor keeps its account of its results. -/
theorem CursorStep.tracks {origin : Cursor K} {results : List (Option (Entry K V))}
    {result : Option (Option (Entry K V))} (step : CursorStep N s shape θ c s' result)
    (ok : SystemOk N s shape) (tracks : Tracks origin ((s.thread θ).cursors c) results)
    : Tracks origin ((s'.thread θ).cursors c) (results ++ result.toList) := by
  cases step with
  | quiet same =>
      rw [same]
      simpa using tracks
  | exhausted finished same =>
      rw [same]
      exact tracks.exhausted rfl rfl rfl finished
  | begins unfinished begins => simpa using tracks.begins begins unfinished
  | finishes passed isSeek begun after =>
      rw [after]
      refine tracks.finish begun (fun entry isFound => ?_)
      exact (passed.effect.candidate ok.inv isSeek rfl entry isFound).1

/-- A cursor agrees with its results in every state of a run that begins before its first
call.
-/
theorem tracks_of_run {start finish : System ι K V}
    (reached : (System.transitions ι K V N).Reachable start)
    (run : (System.transitions ι K V N).Run start trace finish)
    (idle : (start.thread θ).status = .idle)
    (created : ((start.thread θ).cursors c).Created)
    : Tracks ((start.thread θ).cursors c) ((finish.thread θ).cursors c)
        (finish.given θ c trace) := by
  refine run.induct (I := fun trace s =>
    Tracks ((start.thread θ).cursors c) ((s.thread θ).cursors c) (s.given θ c trace)) ?_ ?_
  · rw [System.given, idle]
    exact .created created
  · intro trace s label s' earlier tracks step
    obtain ⟨shape, ok⟩ := reachable_ok (reached.run earlier)
    obtain ⟨result, cursorStep, given⟩ := cursorStep_of_step ok step θ c trace
    rw [given]
    exact cursorStep.tracks ok tracks

omit [DecidableEq ι] in
/-- A cursor yields only the candidate of its lookup. -/
theorem Cursor.eq_of_yields {cursor : Cursor K} {found : Option (Entry K V)}
    {entry : Entry K V} (yields : (cursor.finish found).2 = some entry)
    : found = some entry := by
  cases cursor <;> cases found <;> simp only [Cursor.finish] at yields
  · cases yields
  · exact yields
  · cases yields
  · split_ifs at yields
    exact yields

/-- A call of `next` that yields a record saw it in the map. -/
theorem Execution.stored_of_yields {start finish : System ι K V} {entry : Entry K V}
    (execution : Execution N θ (.next c) (.entry (some entry)) start trace finish)
    : ∃ instant, Visited start trace instant ∧ instant.tree.Stores entry := by
  refine execution.induct (P := fun trace _ pc => pc = .done (.entry (some entry)) →
    ∃ instant, Visited start trace instant ∧ instant.tree.Stores entry) ?_ ?_ ?_ rfl
  · intro pc running isDone
    obtain ⟨cursors, ready, thread⟩ := execution.begins
    rw [thread] at running
    obtain ⟨begun, seek, begins, -⟩ := Cursor.begin_ok (ready c)
    simp only [Call.begin, begins, Status.running.injEq] at running
    rw [← running.2] at isDone
    cases seek <;> cases isDone
  · intro trace s shape pc latched upgraded t' pc' pc'' s' run ok before passed after isDone
    have result : (s'.thread θ).status.result c = some (some entry) := by
      rw [after, isDone]
      exact if_pos rfl
    have given := passed.cursorStep ok c
    rw [result] at given
    generalize isGiven : some (some entry) = result at given
    cases given with
    | quiet | exhausted | begins => cases isGiven
    | finishes passed isSeek begun after =>
        have found := Cursor.eq_of_yields (Option.some.inj isGiven).symm
        obtain ⟨-, stores⟩ := passed.effect.candidate ok.inv isSeek rfl entry found
        exact ⟨s, (Visited.finish run).append, stores⟩
  · intro trace s pc label s' run before running same other step isDone
    obtain ⟨instant, visited, stores⟩ := before isDone
    exact ⟨instant, visited.append, stores⟩

/-- Whatever the threads do, the results of a cursor are records with increasing keys within
its bounds, followed by `None` for ever; and each record that a call of `next` returns was in
the map at some instant between the call's invocation and its return.
-/
theorem iteration_regular {start finish : System ι K V}
    (initial : (System.transitions ι K V N).init start)
    (run : (System.transitions ι K V N).Run start trace finish) (θ : ι) (c : Nat)
    : (resultsOf θ c trace).Pairwise Follows
      ∧ (∀ result ∈ resultsOf θ c trace, ∀ entry ∈ result,
          ((start.thread θ).cursors c).Admits entry.key.key)
      ∧ ∀ front s s' back entry,
          trace = front ++ ⟨s, .respond θ (.next c) (.entry (some entry)), s'⟩ :: back
          → ∃ earlier before begun during,
              front = earlier ++ ⟨before, .invoke θ (.next c), begun⟩ :: during
              ∧ (∀ transition ∈ during, ¬ transition.label.Returns θ)
              ∧ ∃ instant, Visited begun during instant ∧ instant.tree.Stores entry := by
  have reached := TransitionSystem.Reachable.of_init initial
  have tracks := tracks_of_run reached run (initial.idle θ) (initial.cursors θ c)
  refine ⟨(List.pairwise_append.mp tracks.increasing).1, ?_, ?_⟩
  · exact fun result member => tracks.inside result (List.mem_append_left _ member)
  · rintro front s s' back entry rfl
    obtain ⟨former, step⟩ := run.of_append_cons
    dsimp only at former step
    cases step with
    | respond done =>
        obtain ⟨earlier, before, begun, during, rfl, reachable, invoked, later, unanswered⟩ :=
          exists_invocation (initial.idle θ) reached former done
        exact ⟨earlier, before, begun, during, rfl, unanswered,
          Execution.stored_of_yields ⟨⟨before, reachable, invoked⟩, later, unanswered, done⟩⟩

/-- One thread removes the record that another one's iterator has yielded, and inserts a
smaller one, before the iterator goes on.
-/
theorem iteration_regular_interrupted
    : ∃ (trace : Trace (Fin 2) Nat Nat) (finish : System (Fin 2) Nat Nat),
        (resultsOf 1 0 trace).map (Option.map Entry.record)
          = [some (2, 2), some (4, 4), none, none]
        ∧ (resultsOf 1 0 trace).Pairwise Follows
        ∧ (System.transitions (Fin 2) Nat Nat .smallest).Run System.fresh trace finish := by
  have plays : ((System.fresh : System (Fin 2) Nat Nat).replay .smallest [0, 1]
      (Move.whole 0 (.insert 2 2) 3 ++ Move.whole 0 (.insert 4 4) 3
        ++ Move.whole 1 (.next 0) 3
        ++ Move.whole 0 (.remove (.ofKey 2)) 3 ++ Move.whole 0 (.insert 1 1) 3
        ++ Move.whole 1 (.next 0) 2 ++ Move.whole 1 (.next 0) 2 ++ Move.whole 1 (.next 0) 0)).map
          (fun played => (resultsOf 1 0 played.1).map (Option.map Entry.record))
      = some [some (2, 2), some (4, 4), none, none] := by
    decide +kernel
  obtain ⟨⟨trace, finish⟩, replayed, results⟩ := Option.map_eq_some_iff.mp plays
  have run := System.run_of_replay (by decide) replayed
  exact ⟨trace, finish, results,
    (iteration_regular (System.fresh_init .smallest) run 1 0).1, run⟩

end BLink
