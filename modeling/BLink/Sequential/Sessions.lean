import BLink.Sequential.Commands
import BLink.Sequential.Walks

/-! Iteration over a map that is not shared.
A history of a map with cursors is one of a sorted map with walks along it; a walk along a map
that does not change comes to all records inside its bounds.
-/

namespace BLink

open Library

variable {K V : Type} [TotalOrd K]

/-- A sorted map with the walks along it. -/
structure Session (K V : Type) [TotalOrd K] where
  map : SortedMap K V
  walks : Nat → Walk K

/-- What a command does to a sorted map and to the walks along it. A new map has new walks. -/
inductive Session.Step (session : Session K V)
    : Command K V × Response K V → Session K V → Prop
  | next {c record walk response} (nexts : (session.walks c).Nexts session.map record walk)
    (isRecord : response.IsRecord record)
    : Step session (.call (.next c), response)
        { session with walks := Function.update session.walks c walk }
  | plain {call response map} (applies : Applies call session.map response map)
    : Step session (.call call, response) { session with map }
  | clear {walks} (fresh : ∀ c, (walks c).Fresh) : Step session (.clear, .unit) ⟨.empty, walks⟩
  | extend {pairs}
    : Step session (.extend pairs, .unit) { session with map := session.map.insertAll pairs }
  | fromIter {pairs walks} (fresh : ∀ c, (walks c).Fresh)
    : Step session (.fromIter pairs, .unit) ⟨SortedMap.empty.insertAll pairs, walks⟩

/-- The histories of a sorted map with walks along it. -/
def sessions (K V : Type) [TotalOrd K]
    : TransitionSystem (Session K V) (Command K V × Response K V) where
  init session := session.map = .empty ∧ ∀ c, (session.walks c).Fresh
  step := Session.Step

variable {N : PageCapacity} {s s' : System Unit K V} {map map' : SortedMap K V}
  {cursors cursors' : Nat → Cursor K} {call : Call K V} {response : Response K V}

/-- The walks of all cursors. -/
def walksOf (cursors : Nat → Cursor K) (c : Nat) : Walk K := (cursors c).toWalk

theorem walksOf_update (cursors : Nat → Cursor K) (c : Nat) (cursor : Cursor K)
    : walksOf (Function.update cursors c cursor)
      = Function.update (walksOf cursors) c cursor.toWalk := by
  funext other
  by_cases same : other = c
  · rw [same, walksOf, Function.update_self, Function.update_self]
  · rw [walksOf, Function.update_of_ne same, Function.update_of_ne same, walksOf]

theorem Answers.session (answers : Answers call cursors map response map' cursors')
    : Session.Step ⟨map, walksOf cursors⟩ (.call call, response) ⟨map', walksOf cursors'⟩ := by
  cases call with
  | next c =>
      obtain ⟨rfl, result, cursor', nexts, rfl, rfl⟩ := answers
      rw [walksOf_update]
      exact .next nexts.walks ⟨result, rfl, rfl⟩
  | _ =>
      obtain ⟨applies, rfl⟩ := answers
      exact .plain applies

-----------------------------------------------------------------------------------------
-- The session that a map stands for
-----------------------------------------------------------------------------------------

/-- The sorted map that the tree stands for, and for each cursor the walk that it makes. -/
structure System.StandsFor (N : PageCapacity) (s : System Unit K V) (session : Session K V)
    : Prop where
  map : ∃ shape, Inv N.size s.tree shape ∧ Represents s.tree shape session.map
  walks : session.walks = walksOf (s.thread ()).cursors

/-- A map stands for one session only: its tree has one shape. -/
theorem System.StandsFor.unique {session session' : Session K V}
    (standsFor : s.StandsFor N session) (standsFor' : s.StandsFor N session')
    : session = session' := by
  obtain ⟨shape, inv, rep⟩ := standsFor.map
  obtain ⟨shape', inv', rep'⟩ := standsFor'.map
  obtain rfl := inv.shape_unique inv'
  obtain ⟨⟨records, sorted⟩, walks⟩ := session
  obtain ⟨⟨records', sorted'⟩, walks'⟩ := session'
  obtain rfl : records = records' := rep.trans rep'.symm
  obtain rfl : walks = walks' := standsFor.walks.trans standsFor'.walks.symm
  rfl

/-- Between two commands the map rests, with the map and the walks of the session. -/
def System.Rests (N : PageCapacity) (s : System Unit K V) (session : Session K V) : Prop :=
  ∃ cursors, Resting N s session.map cursors ∧ session.walks = walksOf cursors

theorem Resting.rests (resting : Resting N s map cursors) : s.Rests N ⟨map, walksOf cursors⟩ :=
  ⟨cursors, resting, rfl⟩

theorem System.Rests.standsFor {session : Session K V} (rests : s.Rests N session)
    : s.StandsFor N session := by
  obtain ⟨cursors, ⟨idle, shape, serving⟩, walks⟩ := rests
  obtain ⟨rep, same⟩ := serving.idle idle
  exact { map := ⟨shape, serving.ok.inv, rep⟩, walks := by rw [walks, same] }

/-- A map between two commands is simulated by the session with its map and its walks. -/
theorem sessions_simulate (N : PageCapacity)
    : Simulation (histories K V N) (sessions K V) some (System.Rests N) where
  init := by
    intro s initial
    refine ⟨_, ⟨rfl, ?_⟩, (Resting.initial initial).rests⟩
    exact fun c => (initial.cursors () c).fresh
  visible := by
    intro s session label s' seen related step isSeen
    cases isSeen
    obtain ⟨map, walks⟩ := session
    obtain ⟨cursors, resting, rfl⟩ := related
    cases step with
    | call performs =>
        obtain ⟨map', cursors', resting', answers⟩ := resting.performs performs
        exact ⟨⟨map', walksOf cursors'⟩, answers.session, resting'.rests⟩
    | clear _ renewed =>
        exact ⟨_, .clear (fun c => (renewed.cursors c).fresh),
          (Resting.initial renewed.initial).rests⟩
    | extend _ inserted => exact ⟨_, .extend, (resting.insertsAll inserted).rests⟩
    | fromIter _ renewed inserted =>
        exact ⟨_, .fromIter (fun c => (renewed.cursors c).fresh),
          ((Resting.initial renewed.initial).insertsAll inserted).rests⟩
  invisible := by
    intro s session label s' related step isSeen
    cases isSeen

/-- Between two commands every map rests with the session that it stands for. -/
theorem exists_session (reached : (histories K V N).Reachable s)
    : ∃ session, s.Rests N session := by
  obtain ⟨session, -, rests⟩ := (sessions_simulate N).reachable reached
  exact ⟨session, rests⟩

theorem System.StandsFor.rests {session : Session K V} (standsFor : s.StandsFor N session)
    (reached : (histories K V N).Reachable s)
    : s.Rests N session := by
  obtain ⟨other, rests⟩ := exists_session reached
  rwa [standsFor.unique rests.standsFor]

/-- What a command does to the map, it does to the session that the map stands for. -/
theorem System.StandsFor.step {session session' : Session K V}
    {label : Command K V × Response K V} (standsFor : s.StandsFor N session)
    (reached : (histories K V N).Reachable s) (executes : (histories K V N).step s label s')
    (standsFor' : s'.StandsFor N session')
    : session.Step label session' := by
  obtain ⟨goal, step, rests⟩ :=
    (sessions_simulate N).visible _ _ _ _ _ (standsFor.rests reached) executes rfl
  rwa [standsFor'.unique rests.standsFor]

-----------------------------------------------------------------------------------------
-- Walks along a map that does not change
-----------------------------------------------------------------------------------------

instance (start : Bound (Query K)) (key : K) : Decidable (start.AdmitsFrom key) :=
  match start with
  | .included bound => inferInstanceAs (Decidable (bound.cmp key ≠ .gt))
  | .excluded bound => inferInstanceAs (Decidable (bound.cmp key = .lt))
  | .unbounded => inferInstanceAs (Decidable True)

instance (stop : Bound (Query K)) (key : K) : Decidable (stop.AdmitsTo key) :=
  match stop with
  | .included bound => inferInstanceAs (Decidable (bound.cmp key ≠ .lt))
  | .excluded bound => inferInstanceAs (Decidable (bound.cmp key = .gt))
  | .unbounded => inferInstanceAs (Decidable True)

/-- The records of the map inside the walk's bounds. -/
def Walk.inside (walk : Walk K) (map : SortedMap K V) : List (K × V) :=
  map.records.filter
    (fun record => walk.start.AdmitsFrom record.1 ∧ walk.stop.AdmitsTo record.1)

/-- What a walk along one map has come to: the first records inside its bounds, or all of
them and the end.
-/
inductive Walk.Traversed (origin : Walk K) (map : SortedMap K V)
    : Walk K → List (Option (K × V)) → Prop
  | under {front back} (inside : origin.inside map = front ++ back)
    : Traversed origin map { origin with last := front.getLast?.map Prod.fst, ended := false }
        (front.map some)
  | ended {last} (ends : Nat)
    : Traversed origin map { origin with last, ended := true }
        ((origin.inside map).map some ++ List.replicate (ends + 1) none)

variable {origin walk walk' : Walk K} {result : Option (K × V)} {yields : List (Option (K × V))}
  {front back : List (K × V)} {record : K × V}

theorem Walk.mem_inside
    : record ∈ origin.inside map
      ↔ record ∈ map.records
        ∧ origin.start.AdmitsFrom record.1
        ∧ origin.stop.AdmitsTo record.1 := by
  rw [Walk.inside, List.mem_filter, decide_eq_true_iff]

theorem Walk.inside_sorted : SortedBy Prod.fst (origin.inside map) := map.sorted.filter _

section

variable (inside : origin.inside map = front ++ back)
  (isWalk : walk = { origin with last := front.getLast?.map Prod.fst, ended := false })

include inside isWalk

/-- What is ahead of a walk lies above its start bound. -/
theorem Walk.admits_of_ahead (ahead : walk.Ahead record.1) : origin.start.AdmitsFrom record.1 := by
  rw [isWalk, Walk.Ahead] at ahead
  cases last : front.getLast? with
  | none =>
      rw [last] at ahead
      exact ahead
  | some latest =>
      rw [last] at ahead
      have passed : latest ∈ origin.inside map := by
        rw [inside]
        exact List.mem_append_left _ (List.mem_of_getLast? last)
      exact (Walk.mem_inside.mp passed).2.1.mono (isLE_of_compare_lt ahead)

/-- Of the records inside the bounds, those are ahead that the walk has not come to. -/
theorem Walk.ahead_iff (member : record ∈ origin.inside map)
    : walk.Ahead record.1 ↔ record ∈ back := by
  have sorted : SortedBy Prod.fst (front ++ back) := inside ▸ Walk.inside_sorted
  obtain ⟨before, -, across⟩ := SortedBy.append_iff.mp sorted
  rw [isWalk, Walk.Ahead]
  cases last : front.getLast? with
  | none =>
      obtain rfl := List.getLast?_eq_none_iff.mp last
      have all : record ∈ back := by rwa [inside] at member
      exact iff_of_true (Walk.mem_inside.mp member).2.1 all
  | some latest =>
      refine ⟨fun ahead => ?_, fun later => across latest (List.mem_of_getLast? last) record later⟩
      rw [inside] at member
      cases List.mem_append.mp member with
      | inr later => exact later
      | inl earlier =>
          obtain ⟨begin', rfl⟩ := List.getLast?_eq_some_iff.mp last
          have le : (compare record.1 latest.1).isLE := by
            cases List.mem_append.mp earlier with
            | inl lower =>
                have less := (SortedBy.append_iff.mp before).2.2 record lower latest (by simp)
                exact isLE_of_compare_lt less
            | inr same => rw [List.mem_singleton.mp same, Std.ReflOrd.compare_self]; rfl
          exact absurd le (Std.OrientedCmp.not_isLE_of_lt ahead)

/-- The first record that the walk has not come to is the next one. -/
theorem Walk.isNext_head {rest : List (K × V)} (isBack : back = record :: rest)
    : walk.IsNext map record := by
  subst isBack
  have member : record ∈ origin.inside map := by
    rw [inside]
    simp
  obtain ⟨stored, -, within⟩ := Walk.mem_inside.mp member
  refine ⟨stored, (Walk.ahead_iff inside isWalk member).mpr List.mem_cons_self, ?_⟩
  intro other otherStored ahead
  by_contra notLe
  have less : compare other.1 record.1 = .lt := Std.OrientedCmp.lt_of_not_isLE notLe
  have otherInside : other ∈ origin.inside map :=
    Walk.mem_inside.mpr ⟨otherStored, Walk.admits_of_ahead inside isWalk ahead,
      within.mono (isLE_of_compare_lt less)⟩
  have sorted : SortedBy Prod.fst (record :: rest) :=
    (SortedBy.append_iff.mp (inside ▸ Walk.inside_sorted)).2.1
  cases List.mem_cons.mp ((Walk.ahead_iff inside isWalk otherInside).mp ahead) with
  | inl same =>
      rw [same, Std.ReflOrd.compare_self] at less
      cases less
  | inr later =>
      exact notLe (isLE_of_compare_lt ((SortedBy.cons_iff.mp sorted).1 other later))

/-- A walk that has not ended comes to the first record that it has not come to, or ends. -/
theorem Walk.nexts_cases (nexts : walk.Nexts map result walk')
    : (∃ head rest,
        back = head :: rest
        ∧ result = some head
        ∧ walk' = { origin with last := some head.1, ended := false })
      ∨ back = [] ∧ result = none ∧ walk' = { walk with ended := true } := by
  have unended : walk.ended = false := by rw [isWalk]
  cases nexts with
  | ended ended =>
      rw [unended] at ended
      cases ended
  | @comes record _ next within =>
      have member : record ∈ origin.inside map :=
        Walk.mem_inside.mpr
          ⟨next.stored, Walk.admits_of_ahead inside isWalk next.ahead, by rwa [isWalk] at within⟩
      have later := (Walk.ahead_iff inside isWalk member).mp next.ahead
      cases isBack : back with
      | nil =>
          rw [isBack] at later
          cases later
      | cons head rest =>
          obtain rfl := (Walk.isNext_head inside isWalk isBack).unique next
          exact .inl ⟨head, rest, rfl, rfl, by rw [isWalk]⟩
  | ends _ beyond =>
      cases isBack : back with
      | nil => exact .inr ⟨rfl, rfl, rfl⟩
      | cons head rest =>
          have next := Walk.isNext_head inside isWalk isBack
          have member : head ∈ origin.inside map := by
            rw [inside, isBack]
            simp
          refine absurd (Walk.mem_inside.mp member).2.2 ?_
          have notWithin := beyond head next
          rwa [isWalk] at notWithin

end

/-- Every step of a walk along the same map comes to the next record inside its bounds. -/
theorem Walk.Traversed.step (traversed : origin.Traversed map walk yields)
    (nexts : walk.Nexts map result walk')
    : origin.Traversed map walk' (yields ++ [result]) := by
  cases traversed with
  | ended ends =>
      cases nexts with
      | ended =>
          rw [List.append_assoc, ← List.replicate_succ']
          exact .ended (ends + 1)
      | comes unended | ends unended => cases unended
  | @under front back inside =>
      cases Walk.nexts_cases inside rfl nexts with
      | inl comes =>
          obtain ⟨head, rest, rfl, rfl, rfl⟩ := comes
          have more : origin.inside map = (front ++ [head]) ++ rest := by
            rw [inside, List.append_assoc]
            rfl
          have goes := Walk.Traversed.under more
          rw [List.getLast?_append, List.map_append] at goes
          exact goes
      | inr ends =>
          obtain ⟨rfl, rfl, rfl⟩ := ends
          have all : front = origin.inside map := by rw [inside, List.append_nil]
          rw [all]
          exact .ended 0

/-- A traversal yields the records inside the bounds in order, and then only `None`. -/
theorem Walk.Traversed.yields_prefix (traversed : origin.Traversed map walk yields) {n : Nat}
    (enough : yields.length ≤ n)
    : yields <+: (origin.inside map).map some ++ List.replicate n none := by
  cases traversed with
  | @under front back inside =>
      rw [inside, List.map_append, List.append_assoc]
      exact List.prefix_append _ _
  | ended ends =>
      rw [List.length_append, List.length_replicate] at enough
      refine (List.prefix_append_right_inj _).mpr ⟨List.replicate (n - (ends + 1)) none, ?_⟩
      rw [List.replicate_append_replicate]
      congr 1
      omega

-----------------------------------------------------------------------------------------
-- Commands that do not change the map
-----------------------------------------------------------------------------------------

/-- The command leaves the records of the map as they are. -/
def Command.Observes : Command K V → Prop
  | .call (.insert _ _) | .call (.remove _) | .call (.getMut _ _) => False
  | .clear | .extend _ | .fromIter _ => False
  | .call _ => True

/-- The record that a call of the cursor's `next` returns, if the label is such a call. -/
def yielded (c : Nat) : Command K V × Response K V → Option (Option (K × V))
  | (.call (.next other), .entry found) =>
      if other = c then some (found.map Entry.record) else none
  | _ => none

/-- A command that changes no record changes the map not at all, and each walk by what its
cursor yields.
-/
theorem Session.Step.observes {session session' : Session K V}
    {label : Command K V × Response K V} (step : session.Step label session')
    (observes : label.1.Observes) {c : Nat}
    (traversed : origin.Traversed session.map (session.walks c) yields)
    : session'.map = session.map
      ∧ origin.Traversed session.map (session'.walks c) (yields ++ (yielded c label).toList) := by
  cases step with
  | clear | extend | fromIter => exact observes.elim
  | @next other record walk response nexts isRecord =>
      obtain ⟨found, rfl, rfl⟩ := isRecord
      refine ⟨rfl, ?_⟩
      rw [yielded]
      by_cases same : other = c
      · subst same
        simp only [if_true, Function.update_self]
        exact traversed.step nexts
      · simp only [if_neg same, Function.update_of_ne (Ne.symm same), Option.toList_none,
          List.append_nil]
        exact traversed
  | @plain call response map applies =>
      have nothing : yielded c (.call call, response) = none := by
        cases call with
        | next => exact applies.elim
        | _ => rfl
      have same : map = session.map := by
        cases call with
        | insert | remove | getMut => exact observes.elim
        | next => exact applies.elim
        | _ => exact applies.1
      rw [nothing, Option.toList_none, List.append_nil]
      exact ⟨same, traversed⟩

/-- Along a map that does not change, a fresh walk traverses it, by induction on the run. -/
theorem traversed_of_run {session session' : Session K V} {path}
    (run : (sessions K V).Run session path session') {c : Nat}
    (fresh : (session.walks c).Fresh)
    (observes : ∀ transition ∈ path, transition.label.1.Observes)
    : session'.map = session.map
      ∧ (session.walks c).Traversed session.map (session'.walks c)
        (observed (yielded c) path) := by
  induction run with
  | nil =>
      refine ⟨rfl, ?_⟩
      have begins : (session.walks c).Traversed session.map _ _ := .under (List.nil_append _).symm
      have same
          : session.walks c
            = { session.walks c with
                last := [].getLast?.map (Prod.fst : K × V → K)
                ended := false } := by
        rw [← fresh.ended]
        simp [← fresh.last]
      rwa [← same] at begins
  | @snoc path middle label finish run step ih =>
      obtain ⟨same, traversed⟩ :=
        ih (fun transition member => observes transition (List.mem_append_left _ member))
      have last := observes ⟨middle, label, finish⟩ (by simp)
      rw [← same] at traversed
      obtain ⟨same', traversed'⟩ := Session.Step.observes step last traversed
      refine ⟨same'.trans same, ?_⟩
      rw [observed_snoc, ← same]
      exact traversed'

-----------------------------------------------------------------------------------------
-- The end of a walk
-----------------------------------------------------------------------------------------

/-- The command begins a new map, on which only new cursors can be used. -/
def Command.Renews : Command K V → Prop
  | .clear | .fromIter _ => True
  | .call _ | .extend _ => False

/-- A walk ends with a `None`. -/
theorem Walk.Nexts.ended_of_none (nexts : walk.Nexts map none walk') : walk'.ended = true := by
  cases nexts with
  | ended ended => exact ended
  | ends => rfl

/-- A walk that has ended only comes to `None`. -/
theorem Walk.Nexts.of_ended (nexts : walk.Nexts map result walk') (ended : walk.ended = true)
    : result = none ∧ walk' = walk := by
  cases nexts with
  | ended => exact ⟨rfl, rfl⟩
  | comes unended | ends unended =>
      rw [ended] at unended
      cases unended

/-- What a command on the same map yields to a cursor, and how it leaves the cursor's walk. -/
theorem Session.Step.walk_cases {session session' : Session K V}
    {label : Command K V × Response K V} (step : session.Step label session')
    (kept : ¬ label.1.Renews) (c : Nat)
    : (∃ result,
        yielded c label = some result
        ∧ (session.walks c).Nexts session.map result (session'.walks c))
      ∨ yielded c label = none ∧ session'.walks c = session.walks c := by
  cases step with
  | clear | fromIter => exact absurd trivial kept
  | extend => exact .inr ⟨rfl, rfl⟩
  | @next other record walk response nexts isRecord =>
      obtain ⟨found, rfl, rfl⟩ := isRecord
      rw [yielded]
      by_cases same : other = c
      · subst same
        refine .inl ⟨found.map Entry.record, if_pos rfl, ?_⟩
        show Walk.Nexts _ _ _ (Function.update session.walks other walk other)
        rwa [Function.update_self]
      · exact .inr ⟨if_neg same, Function.update_of_ne (Ne.symm same) ..⟩
  | @plain call response map applies =>
      refine .inr ⟨?_, rfl⟩
      cases call with
      | next => exact applies.elim
      | _ => rfl

/-- A walk that has come to `None` has ended, and comes only to `None` from then on. -/
theorem none_of_run {session session' : Session K V} {path}
    (run : (sessions K V).Run session path session') (c : Nat)
    (kept : ∀ transition ∈ path, ¬ transition.label.1.Renews)
    : (none ∈ observed (yielded c) path
        → (session'.walks c).ended = true)
      ∧ (observed (yielded c) path).Pairwise
        (fun earlier later => earlier = none → later = none) := by
  induction run with
  | nil => exact ⟨nofun, .nil⟩
  | @snoc path middle label finish run step ih =>
      obtain ⟨ended, pairwise⟩ :=
        ih (fun transition member => kept transition (List.mem_append_left _ member))
      have last := kept ⟨middle, label, finish⟩ (by simp)
      rw [observed_snoc]
      cases Session.Step.walk_cases step last c with
      | inr idle =>
          obtain ⟨nothing, same⟩ := idle
          rw [nothing, same, Option.toList_none, List.append_nil]
          exact ⟨ended, pairwise⟩
      | inl yields =>
          obtain ⟨result, isYield, nexts⟩ := yields
          rw [isYield, Option.toList_some]
          constructor
          · intro member
            cases List.mem_append.mp member with
            | inl earlier => rw [(nexts.of_ended (ended earlier)).2, ended earlier]
            | inr now =>
                obtain rfl := List.mem_singleton.mp now
                exact nexts.ended_of_none
          · refine List.pairwise_append.mpr ⟨pairwise, List.pairwise_singleton .., ?_⟩
            intro earlier member later now isNone
            obtain rfl := List.mem_singleton.mp now
            exact (nexts.of_ended (ended (isNone ▸ member))).1

-----------------------------------------------------------------------------------------
-- The bounds of a range
-----------------------------------------------------------------------------------------

/-- The key of a bound that has one. -/
def Bound.key? {Q : Type} : Bound Q → Option Q
  | .included key | .excluded key => some key
  | .unbounded => none

/-- Two bounds between which there is no range: they are in the wrong order, or equal and both
excluded.
-/
def Bound.Crossed {Q : Type} [TotalOrd Q] (start stop : Bound Q) : Prop :=
  (∃ first ∈ start.key?, ∃ last ∈ stop.key?, compare first last = .gt)
  ∨ ∃ first last, start = .excluded first ∧ stop = .excluded last ∧ compare first last = .eq

theorem validateBounds_cases {Q : Type} [TotalOrd Q] (start stop : Bound Q)
    : (∃ panic, validateBounds start stop = .error panic) ∧ start.Crossed stop
      ∨ validateBounds start stop = .ok () ∧ ¬ start.Crossed stop := by
  cases start with
  | unbounded => exact .inr ⟨rfl, by simp [Bound.Crossed, Bound.key?]⟩
  | included first =>
      cases stop with
      | unbounded => exact .inr ⟨rfl, by simp [Bound.Crossed, Bound.key?]⟩
      | included last | excluded last =>
          cases compared : compare first last <;>
            simp [validateBounds, Bound.Crossed, Bound.key?, compared]
  | excluded first =>
      cases stop with
      | unbounded => exact .inr ⟨rfl, by simp [Bound.Crossed, Bound.key?]⟩
      | included last | excluded last =>
          cases compared : compare first last <;>
            simp [validateBounds, Bound.Crossed, Bound.key?, compared]

/-- A range is created with its two bounds, unless they are crossed. -/
theorem Cursor.newRange_cases {Q : Type} [TotalOrd Q] (borrow : K → Q)
    (agree : ∀ a b, compare (borrow a) (borrow b) = compare a b) (start stop : Bound Q)
    : (∃ panic, Cursor.newRange borrow agree start stop = .error panic) ∧ start.Crossed stop
      ∨ ¬ start.Crossed stop
        ∧ Cursor.newRange borrow agree start stop
          = .ok (.range (start.toQuery borrow agree) (stop.toQuery borrow agree)
              none false false) := by
  rw [Cursor.newRange]
  cases validateBounds_cases start stop with
  | inl fails =>
      obtain ⟨⟨panic, fails⟩, crossed⟩ := fails
      rw [fails]
      exact .inl ⟨⟨panic, rfl⟩, crossed⟩
  | inr accepted =>
      obtain ⟨accepted, apart⟩ := accepted
      rw [accepted]
      exact .inr ⟨apart, rfl⟩

/-- A run of commands is matched, command by command, by one of the session that its first map
stands for.
-/
theorem System.StandsFor.run {session : Session K V} {trace} (standsFor : s.StandsFor N session)
    (reached : (histories K V N).Reachable s) (run : (histories K V N).Run s trace s')
    : ∃ path session',
        (sessions K V).Run session path session'
        ∧ path.map Transition.label = trace.map Transition.label := by
  obtain ⟨path, session', matched, labels, -⟩ :=
    (sessions_simulate N).run (standsFor.rests reached) run
  exact ⟨path, session', matched, labels.trans observed_some⟩

/-- Between two commands a map that is not shared stands for one session: the sorted map of
its tree, and the walks that its cursors make. Each command does to this session what it is to
do: a call of `next` returns the next record of the cursor's own walk on the present map, if
there is one inside the end bound, and otherwise `None`. Every command can be executed. A cursor
that has yielded `None` yields only `None`. While no record changes, a new cursor yields exactly
the records inside its bounds, in order. A range cannot be created between two bounds just if
they are crossed.
-/
theorem iteration_exact (N : PageCapacity)
    : (∀ s, (histories K V N).Reachable s → ∃! session, s.StandsFor N session)
      ∧ (∀ s session,
          (histories K V N).init s → s.StandsFor N session → (sessions K V).init session)
      ∧ (∀ s label s' session session',
          (histories K V N).Reachable s
          → (histories K V N).step s label s'
          → s.StandsFor N session
          → s'.StandsFor N session'
          → session.Step label session')
      ∧ (∀ s command,
          (histories K V N).Reachable s
          → ∃ response s', (histories K V N).step s (command, response) s')
      ∧ (∀ s trace finish c,
          (histories K V N).Reachable s
          → (histories K V N).Run s trace finish
          → (∀ transition ∈ trace, ¬ transition.label.1.Renews)
          → (observed (yielded c) trace).Pairwise
              (fun earlier later => earlier = none → later = none))
      ∧ (∀ s trace finish c session,
          (histories K V N).Reachable s
          → (histories K V N).Run s trace finish
          → ((s.thread ()).cursors c).Created
          → (∀ transition ∈ trace, transition.label.1.Observes)
          → s.StandsFor N session
          → observed (yielded c) trace
            <+: ((session.walks c).inside session.map).map some
                ++ List.replicate trace.length none)
      ∧ (∀ (Q : Type) [TotalOrd Q] (borrow : K → Q)
          (agree : ∀ a b, compare (borrow a) (borrow b) = compare a b) (start stop : Bound Q),
          (∃ panic, Cursor.newRange borrow agree start stop = .error panic)
            ∧ start.Crossed stop
          ∨ ¬ start.Crossed stop
            ∧ Cursor.newRange borrow agree start stop
              = .ok (.range (start.toQuery borrow agree) (stop.toQuery borrow agree)
                  none false false)) := by
  refine ⟨?_, ?_, ?_, ?_, ?_, ?_, ?_⟩
  · intro s reached
    obtain ⟨session, rests⟩ := exists_session reached
    exact ⟨session, rests.standsFor, fun other standsFor => standsFor.unique rests.standsFor⟩
  · intro s session initial standsFor
    obtain rfl := standsFor.unique (Resting.initial initial).rests.standsFor
    exact ⟨rfl, fun c => (initial.cursors () c).fresh⟩
  · exact fun s label s' session session' reached executes standsFor standsFor' =>
      standsFor.step reached executes standsFor'
  · intro s command reached
    obtain ⟨session, cursors, resting, -⟩ := exists_session reached
    exact resting.exists_executes command
  · intro s trace finish c reached run kept
    obtain ⟨session, rests⟩ := exists_session reached
    obtain ⟨path, session', matched, labels⟩ := rests.standsFor.run reached run
    have kept' := forall_label_congr (fun label => ¬ label.1.Renews) labels kept
    rw [← observed_congr labels]
    exact (none_of_run matched c kept').2
  · intro s trace finish c session reached run created observes standsFor
    obtain ⟨path, session', matched, labels⟩ := standsFor.run reached run
    have observes' := forall_label_congr (fun label => label.1.Observes) labels observes
    have fresh : (session.walks c).Fresh := by
      rw [standsFor.walks]
      exact created.fresh
    obtain ⟨-, traversed⟩ := traversed_of_run matched fresh observes'
    rw [observed_congr labels] at traversed
    exact traversed.yields_prefix observed_length_le
  · exact fun Q _ borrow agree start stop => Cursor.newRange_cases borrow agree start stop

end BLink
