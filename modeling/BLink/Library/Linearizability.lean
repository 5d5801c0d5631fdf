import BLink.Library.TransitionSystem
import Mathlib.Logic.Function.Basic

/-! Linearizability of call histories, and its proof by linearization points.
A call is identified by the position of its invocation in the history. A pending call may
already have taken effect, so an order may contain it; every completed call it must contain.
-/

namespace Library

universe u v w x y z

/-- An invocation or a response of a thread. -/
inductive Event (Thread : Type u) (Call : Type v) (Response : Type w) where
  | invoke (thread : Thread) (call : Call)
  | respond (thread : Thread) (response : Response)

variable {Thread : Type u} {Call : Type v} {Response : Type w} {Abstract : Type x}

/-- The thread that an event belongs to. -/
def Event.thread : Event Thread Call Response → Thread
  | .invoke thread _ => thread
  | .respond thread _ => thread

/-- The call invoked at position `start` is answered at position `finish`: by the next event
of the same thread.
-/
structure Answered (history : List (Event Thread Call Response)) (start finish : Nat)
    (call : Call) (response : Response)
    : Prop where
  answered
    : ∃ thread,
        history[start]? = some (.invoke thread call)
        ∧ start < finish
        ∧ history[finish]? = some (.respond thread response)
        ∧ ∀ position event,
            start < position → position < finish → history[position]? = some event
            → event.thread ≠ thread

/-- A call with the result it is given in a sequential order. -/
structure Operation (Call : Type v) (Response : Type w) where
  position : Nat
  call : Call
  response : Response

/-- Applying calls one by one to an abstract value returns exactly their responses. -/
inductive Replays (spec : Call → Abstract → Response → Abstract → Prop) (start : Abstract)
    : List (Operation Call Response) → Abstract → Prop
  | nil : Replays spec start [] start
  | snoc {order middle finish} {operation : Operation Call Response}
    (before : Replays spec start order middle)
    (applied : spec operation.call middle operation.response finish)
    : Replays spec start (order ++ [operation]) finish

/-- Some order of the calls explains the history: it contains each completed call once and
with its observed response, and otherwise only calls that were invoked; no call is ordered
before one that was answered before its own invocation; and it replays from `start`.
-/
def Linearizable (spec : Call → Abstract → Response → Abstract → Prop) (start : Abstract)
    (history : List (Event Thread Call Response))
    : Prop :=
  ∃ (order : List (Operation Call Response)) (finish : Abstract),
    (order.map Operation.position).Nodup
    ∧ (∀ operation ∈ order,
        ∃ thread, history[operation.position]? = some (.invoke thread operation.call))
    ∧ (∀ begins ends call response,
        Answered history begins ends call response → ⟨begins, call, response⟩ ∈ order)
    ∧ order.Pairwise
        (fun earlier later =>
          ∀ ends call response,
            Answered history later.position ends call response → earlier.position ≤ ends)
    ∧ Replays spec start order finish

-----------------------------------------------------------------------------------------
-- Linearization points
-----------------------------------------------------------------------------------------

/-- What a thread's current call has come to: it has no call, its call has not taken effect,
or its call has taken effect with a result.
-/
inductive CallStatus (Call : Type v) (Response : Type w) where
  | idle
  | pending (call : Call)
  | decided (call : Call) (response : Response)

/-- `position` holds the latest event of `thread`. -/
def LatestAt (history : List (Event Thread Call Response)) (thread : Thread)
    (position : Nat)
    : Prop :=
  (∃ event, history[position]? = some event ∧ event.thread = thread)
  ∧ ∀ later event, position < later → history[later]? = some event → event.thread ≠ thread

theorem LatestAt.unique {history : List (Event Thread Call Response)} {thread : Thread}
    {first second : Nat} (hf : LatestAt history thread first)
    (hs : LatestAt history thread second)
    : first = second := by
  obtain ⟨⟨e, he, te⟩, afterFirst⟩ := hf
  obtain ⟨⟨f, hf, tf⟩, afterSecond⟩ := hs
  rcases Nat.lt_trichotomy first second with lt | same | gt
  · exact absurd tf (afterFirst second f lt hf)
  · exact same
  · exact absurd te (afterSecond first e gt he)

theorem getElem?_append_singleton_eq_some {α : Type u} {items : List α} {last item : α}
    {position : Nat}
    : (items ++ [last])[position]? = some item
      ↔ items[position]? = some item ∨ position = items.length ∧ item = last := by
  rcases Nat.lt_trichotomy position items.length with lt | rfl | gt
  · rw [List.getElem?_append_left lt]
    simp [Nat.ne_of_lt lt]
  · simp [eq_comm]
  · rw [List.getElem?_append_right (Nat.le_of_lt gt),
      List.getElem?_eq_none (by simpa using Nat.le_sub_of_add_le (by omega)),
      List.getElem?_eq_none (Nat.le_of_lt gt)]
    simp [Nat.ne_of_gt gt]

/-- Appending an event answers a call only if it is that call's response. -/
theorem Answered.append {history : List (Event Thread Call Response)} {last}
    {begins ends call response}
    (answered : Answered (history ++ [last]) begins ends call response)
    : Answered history begins ends call response
      ∨ ends = history.length
        ∧ ∃ thread,
            last = .respond thread response
            ∧ history[begins]? = some (.invoke thread call)
            ∧ LatestAt history thread begins := by
  obtain ⟨thread, invoked, lt, responded, quiet⟩ := answered.answered
  have invokedBefore : history[begins]? = some (.invoke thread call) := by
    rcases getElem?_append_singleton_eq_some.mp invoked with h | ⟨rfl, -⟩
    · exact h
    · rw [List.getElem?_eq_none (by simp; omega)] at responded
      cases responded
  rcases getElem?_append_singleton_eq_some.mp responded with h | ⟨rfl, same⟩
  · refine Or.inl ⟨thread, invokedBefore, lt, h, ?_⟩
    intro position event after before found
    exact quiet position event after before
      (getElem?_append_singleton_eq_some.mpr (Or.inl found))
  · refine Or.inr ⟨rfl, thread, same.symm, invokedBefore, ⟨_, invokedBefore, rfl⟩, ?_⟩
    intro later event after found
    have inside : later < history.length := (List.getElem?_eq_some_iff.mp found).1
    exact quiet later event after inside
      (getElem?_append_singleton_eq_some.mpr (Or.inl found))

/-- Another thread's event leaves the latest event of a thread where it was. -/
theorem LatestAt.append {history : List (Event Thread Call Response)} {thread : Thread}
    {position : Nat} {last} (latest : LatestAt history thread position)
    (other : last.thread ≠ thread)
    : LatestAt (history ++ [last]) thread position := by
  obtain ⟨⟨event, found, own⟩, quiet⟩ := latest
  refine ⟨⟨event, getElem?_append_singleton_eq_some.mpr (Or.inl found), own⟩, ?_⟩
  intro later event after found
  rcases getElem?_append_singleton_eq_some.mp found with h | ⟨-, rfl⟩
  · exact quiet later event after h
  · exact other

/-- A thread's own new event is its latest one. -/
theorem LatestAt.last {history : List (Event Thread Call Response)} {last}
    : LatestAt (history ++ [last]) last.thread history.length := by
  refine ⟨⟨last, by simp, rfl⟩, ?_⟩
  intro later event after found
  rw [List.getElem?_eq_none (by simp; omega)] at found
  cases found

variable [DecidableEq Thread]

/-- How one step may change the abstract value and the threads' statuses: only the point of
a pending call changes the value, and it does so as the specification of the call says.
-/
inductive PointStep (spec : Call → Abstract → Response → Abstract → Prop)
    (status : Thread → CallStatus Call Response) (value : Abstract)
    : Option (Event Thread Call Response) → (Thread → CallStatus Call Response)
      → Abstract → Prop
  | invoke {thread call} (free : status thread = .idle)
    : PointStep spec status value (some (.invoke thread call))
        (Function.update status thread (.pending call)) value
  | internal : PointStep spec status value none status value
  | point {thread call response next} (waiting : status thread = .pending call)
    (applied : spec call value response next)
    : PointStep spec status value none
        (Function.update status thread (.decided call response)) next
  | respond {thread call response} (done : status thread = .decided call response)
    : PointStep spec status value (some (.respond thread response))
        (Function.update status thread .idle) value

/-- The sequential order built so far explains the history and the current statuses. -/
structure Explains (spec : Call → Abstract → Response → Abstract → Prop) (start : Abstract)
    (history : List (Event Thread Call Response))
    (status : Thread → CallStatus Call Response) (value : Abstract)
    (order : List (Operation Call Response))
    : Prop where
  nodup : (order.map Operation.position).Nodup
  invoked
    : ∀ operation ∈ order,
        ∃ thread, history[operation.position]? = some (.invoke thread operation.call)
  completed
    : ∀ begins ends call response,
        Answered history begins ends call response → ⟨begins, call, response⟩ ∈ order
  realTime
    : order.Pairwise
        (fun earlier later =>
          ∀ ends call response,
            Answered history later.position ends call response → earlier.position ≤ ends)
  replays : Replays spec start order value
  pending
    : ∀ thread call,
        status thread = .pending call
        → ∃ position,
            history[position]? = some (.invoke thread call)
            ∧ LatestAt history thread position
            ∧ position ∉ order.map Operation.position
  decided
    : ∀ thread call response,
        status thread = .decided call response
        → ∃ position,
            history[position]? = some (.invoke thread call)
            ∧ LatestAt history thread position
            ∧ ⟨position, call, response⟩ ∈ order

namespace Explains

variable {spec : Call → Abstract → Response → Abstract → Prop} {start value next : Abstract}
    {history : List (Event Thread Call Response)} {order : List (Operation Call Response)}
    {status : Thread → CallStatus Call Response}

omit [DecidableEq Thread] in
/-- Nothing has happened yet. -/
theorem initial {status : Thread → CallStatus Call Response}
    (idle : ∀ thread, status thread = .idle)
    : Explains spec start [] status start [] where
  nodup := List.nodup_nil
  invoked := by simp
  completed _ _ _ _ answered := by
    obtain ⟨_, found, -⟩ := answered.answered
    simp at found
  realTime := List.Pairwise.nil
  replays := .nil
  pending := by simp [idle]
  decided := by simp [idle]

/-- An invocation adds nothing to the order. -/
theorem invoke (explains : Explains spec start history status value order)
    (thread : Thread) (call : Call)
    : Explains spec start (history ++ [.invoke thread call])
        (Function.update status thread (.pending call)) value order := by
  have kept {event position} (found : history[position]? = some event)
      : (history ++ [.invoke thread call])[position]? = some event :=
    getElem?_append_singleton_eq_some.mpr (Or.inl found)
  have old {begins ends c r}
      (answered : Answered (history ++ [.invoke thread call]) begins ends c r)
      : Answered history begins ends c r := by
    rcases answered.append with old | ⟨-, _, same, -⟩
    · exact old
    · cases same
  refine {
    nodup := explains.nodup
    invoked := fun operation member => (explains.invoked operation member).imp (fun _ h => kept h)
    completed := fun _ _ _ _ answered => explains.completed _ _ _ _ (old answered)
    realTime := explains.realTime.imp (fun earlier ends c r answered => earlier ends c r (old answered))
    replays := explains.replays
    pending := ?_
    decided := ?_
  }
  · intro other c waiting
    by_cases same : other = thread
    · subst other
      rw [Function.update_self] at waiting
      cases waiting
      refine ⟨history.length, by simp, LatestAt.last, ?_⟩
      intro member
      obtain ⟨operation, inOrder, position⟩ := List.mem_map.mp member
      obtain ⟨_, found⟩ := explains.invoked operation inOrder
      rw [position, List.getElem?_eq_none (Nat.le_refl _)] at found
      cases found
    · rw [Function.update_of_ne same] at waiting
      obtain ⟨position, found, latest, absent⟩ := explains.pending other c waiting
      exact ⟨position, kept found, latest.append (Ne.symm same), absent⟩
  · intro other c r done
    by_cases same : other = thread
    · subst other
      rw [Function.update_self] at done
      cases done
    · rw [Function.update_of_ne same] at done
      obtain ⟨position, found, latest, member⟩ := explains.decided other c r done
      exact ⟨position, kept found, latest.append (Ne.symm same), member⟩

/-- At its linearization point a pending call joins the end of the order: it has not been
answered yet, so no later operation is ordered before an earlier answered one.
-/
theorem point (explains : Explains spec start history status value order)
    {thread : Thread} {call : Call} {response : Response}
    (waiting : status thread = .pending call) (applied : spec call value response next)
    : ∃ order,
        Explains spec start history
          (Function.update status thread (.decided call response)) next order := by
  obtain ⟨position, found, latest, absent⟩ := explains.pending thread call waiting
  have unanswered {ends c r} : ¬ Answered history position ends c r := by
    intro answered
    obtain ⟨owner, invoked, lt, responded, -⟩ := answered.answered
    rw [found] at invoked
    cases invoked
    exact latest.2 ends _ lt responded rfl
  refine ⟨order ++ [⟨position, call, response⟩], ?_⟩
  refine {
    nodup := ?_
    invoked := ?_
    completed := fun begins ends c r answered =>
      List.mem_append_left _ (explains.completed begins ends c r answered)
    realTime := ?_
    replays := explains.replays.snoc applied
    pending := ?_
    decided := ?_
  }
  · rw [List.map_append, List.map_singleton]
    refine List.nodup_append.mpr ⟨explains.nodup, List.pairwise_singleton _ _, ?_⟩
    rintro a member b last rfl
    obtain rfl : a = position := by simpa using last
    exact absent member
  · intro operation member
    rcases List.mem_append.mp member with earlier | last
    · exact explains.invoked operation earlier
    · obtain rfl := List.mem_singleton.mp last
      exact ⟨thread, found⟩
  · refine List.pairwise_append.mpr ⟨explains.realTime, List.pairwise_singleton _ _, ?_⟩
    intro earlier _ later last ends c r answered
    obtain rfl := List.mem_singleton.mp last
    exact absurd answered unanswered
  · intro other c stillWaiting
    by_cases same : other = thread
    · subst other
      rw [Function.update_self] at stillWaiting
      cases stillWaiting
    · rw [Function.update_of_ne same] at stillWaiting
      obtain ⟨place, otherFound, otherLatest, otherAbsent⟩ := explains.pending other c stillWaiting
      refine ⟨place, otherFound, otherLatest, ?_⟩
      rw [List.map_append, List.mem_append, not_or]
      refine ⟨otherAbsent, ?_⟩
      rintro last
      obtain rfl : place = position := by simpa using last
      rw [found] at otherFound
      cases otherFound
      exact same rfl
  · intro other c r done
    by_cases same : other = thread
    · subst other
      rw [Function.update_self] at done
      cases done
      exact ⟨position, found, latest, by simp⟩
    · rw [Function.update_of_ne same] at done
      obtain ⟨place, otherFound, otherLatest, member⟩ := explains.decided other c r done
      exact ⟨place, otherFound, otherLatest, List.mem_append_left _ member⟩

/-- A response reports the result its call was given in the order. -/
theorem respond (explains : Explains spec start history status value order)
    {thread : Thread} {call : Call} {response : Response}
    (done : status thread = .decided call response)
    : Explains spec start (history ++ [.respond thread response])
        (Function.update status thread .idle) value order := by
  have kept {event position} (found : history[position]? = some event)
      : (history ++ [.respond thread response])[position]? = some event :=
    getElem?_append_singleton_eq_some.mpr (Or.inl found)
  obtain ⟨position, found, latest, member⟩ := explains.decided thread call response done
  refine {
    nodup := explains.nodup
    invoked := fun operation member => (explains.invoked operation member).imp (fun _ h => kept h)
    completed := ?_
    realTime := ?_
    replays := explains.replays
    pending := ?_
    decided := ?_
  }
  · intro begins ends c r answered
    rcases answered.append with old | ⟨-, owner, same, invoked, last⟩
    · exact explains.completed begins ends c r old
    · cases same
      obtain rfl := last.unique latest
      rw [found] at invoked
      cases invoked
      exact member
  · refine explains.realTime.imp_of_mem ?_
    intro earlier later inOrder _ before ends c r answered
    rcases answered.append with old | ⟨rfl, -⟩
    · exact before ends c r old
    · obtain ⟨_, invoked⟩ := explains.invoked earlier inOrder
      exact Nat.le_of_lt (List.getElem?_eq_some_iff.mp invoked).1
  · intro other c waiting
    by_cases same : other = thread
    · subst other
      rw [Function.update_self] at waiting
      cases waiting
    · rw [Function.update_of_ne same] at waiting
      obtain ⟨place, otherFound, otherLatest, absent⟩ := explains.pending other c waiting
      exact ⟨place, kept otherFound, otherLatest.append (Ne.symm same), absent⟩
  · intro other c r otherDone
    by_cases same : other = thread
    · subst other
      rw [Function.update_self] at otherDone
      cases otherDone
    · rw [Function.update_of_ne same] at otherDone
      obtain ⟨place, otherFound, otherLatest, inOrder⟩ := explains.decided other c r otherDone
      exact ⟨place, kept otherFound, otherLatest.append (Ne.symm same), inOrder⟩

end Explains

/-- The events of a run. -/
def historyOf {σ : Type y} {ℓ : Type z} (event : ℓ → Option (Event Thread Call Response))
    (trace : List (Transition σ ℓ))
    : List (Event Thread Call Response) :=
  trace.filterMap (fun transition => event transition.label)

-----------------------------------------------------------------------------------------
-- Steps with several events
-----------------------------------------------------------------------------------------

/-- A step as a sequence of point steps, with the events of all of them. -/
inductive PointSteps (spec : Call → Abstract → Response → Abstract → Prop)
    (status : Thread → CallStatus Call Response) (value : Abstract)
    : List (Event Thread Call Response) → (Thread → CallStatus Call Response) → Abstract
      → Prop
  | nil : PointSteps spec status value [] status value
  | snoc {events status' value' occurred status'' value''}
    (before : PointSteps spec status value events status' value')
    (step : PointStep spec status' value' occurred status'' value'')
    : PointSteps spec status value (events ++ occurred.toList) status'' value''

section

variable {spec : Call → Abstract → Response → Abstract → Prop} {start value value' : Abstract}
    {history : List (Event Thread Call Response)} {order : List (Operation Call Response)}
    {status status' : Thread → CallStatus Call Response}

theorem PointStep.steps {occurred : Option (Event Thread Call Response)}
    (step : PointStep spec status value occurred status' value')
    : PointSteps spec status value occurred.toList status' value' := by
  simpa using PointSteps.nil.snoc step

/-- A call that begins, takes effect and returns at once. -/
theorem PointSteps.instant {thread : Thread} {call : Call} {response : Response}
    (free : status thread = .idle) (applied : spec call value response value')
    : PointSteps spec status value [.invoke thread call, .respond thread response] status
        value' := by
  have begun : PointStep spec status value (some (.invoke thread call))
      (Function.update status thread (.pending call)) value := .invoke free
  have waiting : Function.update status thread (.pending call) thread = .pending call :=
    Function.update_self ..
  have decided := (PointSteps.nil.snoc begun).snoc (.point waiting applied)
  rw [Function.update_idem] at decided
  have done : Function.update status thread (.decided call response) thread
      = .decided call response := Function.update_self ..
  have returned := decided.snoc (.respond done)
  rw [Function.update_idem, ← free, Function.update_eq_self] at returned
  exact returned

/-- The order that explains a history is extended along a sequence of point steps. -/
theorem Explains.steps {events : List (Event Thread Call Response)}
    (explains : Explains spec start history status value order)
    (steps : PointSteps spec status value events status' value')
    : ∃ order', Explains spec start (history ++ events) status' value' order' := by
  induction steps with
  | nil => exact ⟨order, by simpa using explains⟩
  | snoc _ step ih =>
      obtain ⟨order, explains⟩ := ih
      rw [← List.append_assoc]
      cases step with
      | invoke free => exact ⟨order, explains.invoke _ _⟩
      | internal => exact ⟨order, by simpa using explains⟩
      | point waiting applied => simpa using explains.point waiting applied
      | respond done => exact ⟨order, explains.respond done⟩

end

/-- The events of a run whose steps may have several. -/
def eventsOf {σ : Type y} {ℓ : Type z} (events : ℓ → List (Event Thread Call Response))
    (trace : List (Transition σ ℓ))
    : List (Event Thread Call Response) :=
  trace.flatMap (fun transition => events transition.label)

/-- A system each of whose steps is a sequence of point steps of its abstract value has
linearizable runs. Witness: the order of the linearization points, built along the run.
-/
theorem linearizable_of_pointSteps {σ : Type y} {ℓ : Type z} {system : TransitionSystem σ ℓ}
    {events : ℓ → List (Event Thread Call Response)}
    {spec : Call → Abstract → Response → Abstract → Prop}
    (abstract : σ → Abstract → Prop) (status : σ → Thread → CallStatus Call Response)
    {start finish : σ} {trace : List (Transition σ ℓ)} {value : Abstract}
    (run : system.Run start trace finish)
    (idle : ∀ thread, status start thread = .idle) (represented : abstract start value)
    (points
      : ∀ earlier s label s' current,
          system.Run start earlier s → system.step s label s' → abstract s current
          → ∃ next,
              abstract s' next
              ∧ PointSteps spec (status s) current (events label) (status s') next)
    : Linearizable spec value (eventsOf events trace) := by
  have explained : ∃ current order,
      abstract finish current
      ∧ Explains spec value (eventsOf events trace) (status finish) current order := by
    refine run.induct (I := fun trace state => ∃ current order,
      abstract state current
      ∧ Explains spec value (eventsOf events trace) (status state) current order) ?_ ?_
    · exact ⟨value, [], represented, .initial idle⟩
    · rintro trace s label s' prefixRun ⟨current, order, holds, explains⟩ step
      obtain ⟨next, holdsNext, steps⟩ := points trace s label s' current prefixRun step holds
      obtain ⟨order', explains'⟩ := explains.steps steps
      exact ⟨next, order', holdsNext, by simpa [eventsOf] using explains'⟩
  obtain ⟨current, order, -, explains⟩ := explained
  exact ⟨order, current, explains.nodup, explains.invoked, explains.completed,
    explains.realTime, explains.replays⟩

/-- The special case of steps with at most one event, each of which is a `PointStep`. -/
theorem linearizable_of_points {σ : Type y} {ℓ : Type z} {system : TransitionSystem σ ℓ}
    {event : ℓ → Option (Event Thread Call Response)}
    {spec : Call → Abstract → Response → Abstract → Prop}
    (abstract : σ → Abstract → Prop) (status : σ → Thread → CallStatus Call Response)
    {start finish : σ} {trace : List (Transition σ ℓ)} {value : Abstract}
    (run : system.Run start trace finish)
    (idle : ∀ thread, status start thread = .idle) (represented : abstract start value)
    (points
      : ∀ earlier s label s' current,
          system.Run start earlier s → system.step s label s' → abstract s current
          → ∃ next,
              abstract s' next
              ∧ PointStep spec (status s) current (event label) (status s') next)
    : Linearizable spec value (historyOf event trace) := by
  have events : historyOf event trace = eventsOf (fun label => (event label).toList) trace :=
    List.filterMap_eq_flatMap_toList _ trace
  rw [events]
  refine linearizable_of_pointSteps abstract status run idle represented ?_
  intro earlier s label s' current prefixRun step holds
  obtain ⟨next, holdsNext, point⟩ := points earlier s label s' current prefixRun step holds
  exact ⟨next, holdsNext, point.steps⟩

-----------------------------------------------------------------------------------------
-- Objects on top of other objects
-----------------------------------------------------------------------------------------

section

variable {Call' : Type v} {Response' : Type w} {Abstract' : Type x} (inner : Call → Option Call')
  (answer : Call' → Response → Response')

/-- What a call has come to as the call of another object, which makes it for one of its own; the
calls that it does not make belong to nobody.
-/
def CallStatus.translate : CallStatus Call Response → CallStatus Call' Response'
  | .idle => .idle
  | .pending call => ((inner call).map .pending).getD .idle
  | .decided call response =>
      ((inner call).map (fun outer => .decided outer (answer outer response))).getD .idle

/-- An event as an event of the other object. -/
def Event.translate (status : Thread → CallStatus Call Response)
    : Event Thread Call Response → Option (Event Thread Call' Response')
  | .invoke thread call => (inner call).map (.invoke thread)
  | .respond thread response =>
      match status thread with
      | .decided call _ => (inner call).map (fun outer => .respond thread (answer outer response))
      | .idle | .pending _ => none

variable {inner answer} {spec : Call → Abstract → Response → Abstract → Prop}
  {spec' : Call' → Abstract' → Response' → Abstract' → Prop} {abstraction : Abstract → Abstract'}
  {status status' : Thread → CallStatus Call Response} {value value' : Abstract}
  {occurred : Option (Event Thread Call Response)}

omit [DecidableEq Thread] in
theorem CallStatus.translate_some {call : Call} {outer : Call'} (isInner : inner call = some outer)
    : (CallStatus.pending call : CallStatus Call Response).translate inner answer = .pending outer
      ∧ ∀ response,
          (CallStatus.decided call response).translate inner answer
          = .decided outer (answer outer response) := by
  simp [translate, isInner]

omit [DecidableEq Thread] in
theorem CallStatus.translate_none {call : Call} (isOther : inner call = none)
    : (CallStatus.pending call : CallStatus Call Response).translate inner answer = .idle
      ∧ ∀ response : Response,
          (CallStatus.decided call response).translate inner answer = .idle := by
  simp [translate, isOther]

/-- If an object does what another one specifies, so does the object that makes its calls: the
point steps of the one are point steps of the other.
-/
theorem PointStep.translate (step : PointStep spec status value occurred status' value')
    (simulates
      : ∀ call outer value response next,
          inner call = some outer → spec call value response next
          → spec' outer (abstraction value) (answer outer response) (abstraction next))
    (others
      : ∀ call value response next,
          inner call = none → spec call value response next → abstraction next = abstraction value)
    : PointStep spec' (fun thread => (status thread).translate inner answer) (abstraction value)
        (occurred.bind (Event.translate inner answer status))
        (fun thread => (status' thread).translate inner answer) (abstraction value') := by
  have moved (thread : Thread) (next : CallStatus Call Response)
      : (fun other => (Function.update status thread next other).translate inner answer)
        = Function.update (fun other => (status other).translate inner answer) thread
            (next.translate inner answer) := by
    funext other
    by_cases here : other = thread
    · subst here
      rw [Function.update_self, Function.update_self]
    · rw [Function.update_of_ne here, Function.update_of_ne here]
  have still (thread : Thread) (same : (status thread).translate inner answer = .idle)
      : Function.update (fun other => (status other).translate inner answer) thread .idle
        = fun other => (status other).translate inner answer := by
    rw [← same]
    exact Function.update_eq_self thread _
  cases step with
  | @invoke thread call free =>
      have idle : (status thread).translate inner answer = .idle := by rw [free]; rfl
      rw [moved, Option.bind_some, Event.translate]
      cases isInner : inner call with
      | none =>
          rw [(CallStatus.translate_none isInner).1, still thread idle]
          exact .internal
      | some outer =>
          rw [(CallStatus.translate_some isInner).1]
          exact .invoke idle
  | internal => exact .internal
  | @point thread call response _ waiting applied =>
      rw [moved, Option.bind_none]
      cases isInner : inner call with
      | none =>
          have idle : (status thread).translate inner answer = .idle := by
            rw [waiting, (CallStatus.translate_none isInner).1]
          rw [(CallStatus.translate_none isInner).2, still thread idle,
            others call value response value' isInner applied]
          exact .internal
      | some outer =>
          rw [(CallStatus.translate_some isInner).2]
          refine .point ?_ (simulates call outer value response value' isInner applied)
          rw [waiting, (CallStatus.translate_some isInner).1]
  | @respond thread call response done =>
      have event : Event.translate inner answer status (.respond thread response)
          = (inner call).map (fun outer => .respond thread (answer outer response)) := by
        simp only [Event.translate, done]
      have ended
          : (CallStatus.idle : CallStatus Call Response).translate inner answer = .idle :=
        rfl
      rw [moved, ended, Option.bind_some, event]
      cases isInner : inner call with
      | none =>
          rw [still thread (by rw [done, (CallStatus.translate_none isInner).2])]
          exact .internal
      | some outer =>
          have decided : (status thread).translate inner answer
              = .decided outer (answer outer response) := by
            rw [done, (CallStatus.translate_some isInner).2]
          exact .respond decided

end

end Library
