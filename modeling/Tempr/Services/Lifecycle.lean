import Mathlib.Algebra.GroupWithZero.Nat
import Tempr.Services.Query

/-!
# The life of a run

What happens around one execution is written in a journal: the replies of the
connection and of the driver, whether the run is flagged as cancelled, what
`run` returned, and how often the run leaves `active_runs` and is inserted in
`completed_runs`. At every step of every interleaving the events, the sink and
the maps of the service agree with the journal.
-/

namespace Tempr.Services.QueryService

open Tempr.Support

variable {Value : Type}

/-! ## The journal -/

/-- What happened around an execution. -/
structure Journal (Value : Type) where
  /-- the columns that the driver replied -/
  columns : List (List ColumnSpec)
  /-- the batches that the driver replied, in order -/
  batches : List (Batch Value)
  /-- the errors that the connection and the driver replied -/
  failures : List ServiceError
  /-- the run was seen flagged in `active_runs` -/
  flagged : Bool
  /-- what `run` returned -/
  result : Option RunResult
  /-- how often the run left `active_runs` -/
  departures : Nat
  /-- how often it was inserted in `completed_runs` -/
  insertions : Nat

namespace Journal

def empty : Journal Value :=
  ⟨[], [], [], false, none, 0, 0⟩

/-- The outcome that the replies call for. -/
def outcome (j : Journal Value) : QueryOutcome :=
  if j.flagged then .cancelled
  else
    match j.failures with
    | [] => .success
    | error :: _ => .error error.toString

/-- The number of rows in the batches. -/
def rowCount (j : Journal Value) : Nat :=
  (j.batches.map fun batch => batch.rows.length).sum

end Journal

namespace ExecAction

def columns : ExecAction Value → List (List ColumnSpec)
  | execute (.ok columns) => [columns]
  | _ => []

def batches : ExecAction Value → List (Batch Value)
  | nextBatch (.ok (some batch)) => [batch]
  | _ => []

/-- The error that a reply gives to `run`. -/
def failures (e : Execution) : ExecAction Value → List ServiceError
  | select entry =>
      match selectPool e.connectionId entry with
      | .ok _ => []
      | .error error => [error]
  | borrow (.error error) =>
      [.queryFailed "ConnectionService" (poolErrorReason error)]
  | execute (.error error) => [.queryFailed "ConnectionService" error.toString]
  | nextBatch (.error error) => [.queryFailed "ConnectionService" error.toString]
  | _ => []

def inserts : ExecAction Value → Nat
  | record _ => 1
  | _ => 0

end ExecAction

/-- The run is flagged in `active_runs`. -/
def State.flagged (e : Execution) (s : State Value) : Bool :=
  (s.activeRuns e.runId).any ActiveRun.cancelled

/-- What `run` has just returned. -/
def Phase.returns : Phase Value → Option RunResult
  | finishing result _ => some result
  | _ => none

def Phase.isFinished : Phase Value → Bool
  | finished _ => true
  | _ => false

theorem Phase.exists_of_isFinished {phase : Phase Value}
    (h : phase.isFinished = true) : ∃ returned, phase = .finished returned := by
  cases phase with
  | finished returned => exact ⟨returned, rfl⟩
  | _ => cases h

/-- The run has left `active_runs` between two states. -/
def departs (e : Execution) (s t : State Value) : Nat :=
  if (s.activeRuns e.runId).isSome && (t.activeRuns e.runId).isNone then 1
  else 0

/-- The journal after the step `a` of the execution from `s` to `t`. -/
def Journal.write (e : Execution) (j : Journal Value) (s t : State Value)
    (a : ExecAction Value) : Journal Value where
  columns := j.columns ++ a.columns
  batches := j.batches ++ a.batches
  failures := j.failures ++ a.failures e
  flagged := j.flagged || t.flagged e
  result := t.phase.returns.or j.result
  departures := j.departures + departs e s t
  insertions := j.insertions + a.inserts

/-- The journal after a step from `s`. -/
def Journal.note (e : Execution) (j : Journal Value) (s : State Value)
    (a : Action Value) : Journal Value :=
  match next e s a, a with
  | some t, .exec a => j.write e s t a
  | some t, .cancel _ _ =>
      { j with
        flagged := j.flagged || t.flagged e
        departures := j.departures + departs e s t }
  | none, _ => j

/-- The execution and the cancels of its run, with the journal of the run. -/
def journalled (e : Execution) :
    System (State Value × Journal Value) (Action Value) :=
  (system e).watch Journal.empty (Journal.note e)

/-- The events about the run. -/
def State.events (e : Execution) (s : State Value) : List AppEvent :=
  s.published.filter (AppEvent.isAbout e.runId)

def Execution.rowsReceived (e : Execution) (batch : Batch Value) : AppEvent :=
  .rowsReceived e.runId batch.rows.length

/-! ## What holds at each phase -/

/-- The run has not been registered. -/
structure Unregistered (e : Execution) (s : State Value) (j : Journal Value)
    (events : List AppEvent) : Prop where
  active : s.activeRuns e.runId = none
  completed : s.completedRuns e.runId = none
  events : s.events e = events
  sink : s.sink = []
  journal : j = .empty

/-- The run is registered, `run` has published `told` and delivered `sink`. -/
structure Registered (e : Execution) (s : State Value) (j : Journal Value)
    (told : List (Batch Value)) (sink : List (SinkCall Value)) : Prop where
  active : ∃ active, s.activeRuns e.runId = some active ∧
    active.cancelled = j.flagged ∧ active.queryRun = e.newRun
  completed : s.completedRuns e.runId = none
  events : s.events e = .queryStarted e.runId :: told.map e.rowsReceived
  sink : s.sink = sink
  departures : j.departures = 0
  insertions : j.insertions = 0

/-- No columns have been replied. -/
structure Unopened (j : Journal Value) : Prop where
  columns : j.columns = []
  batches : j.batches = []
  failures : j.failures = []
  result : j.result = none

/-- The sink has the columns and all batches. -/
def Journal.delivered (j : Journal Value) : List (SinkCall Value) :=
  j.columns.map SinkCall.columns ++ j.batches.map SinkCall.batch

/-- The driver has opened a stream, and `run` has counted `totalRows` rows. -/
structure Opened (j : Journal Value) (columns : List ColumnMeta)
    (totalRows : Nat) : Prop where
  columns : ∃ specs, j.columns = [specs] ∧ columns = columnMeta specs
  totalRows : totalRows = j.rowCount
  failures : j.failures = []
  result : j.result = none

/-- What `run` returned agrees with the replies. -/
structure Returned (e : Execution) (s : State Value) (j : Journal Value)
    (result : RunResult) (resultSet : Option (ResultSet Value)) : Prop where
  returned : j.result = some result
  sink : s.sink = j.delivered
  columns : j.columns.length ≤ 1
  batches : j.batches ≠ [] → j.columns.length = 1
  succeeded : ∀ columns totalRows, result = .ok (columns, totalRows) →
    j.failures = [] ∧ totalRows = j.rowCount ∧
      (∃ specs, j.columns = [specs] ∧ columns = columnMeta specs) ∧
      resultSet = if e.collects then
        some ⟨columns, s.collectedRows, totalRows, false⟩ else none
  failed : ∀ error, result = .error error →
    resultSet = none ∧ (j.failures = [error] ∨ j.flagged = true)

/-- The run has been removed from `active_runs`. -/
structure Removed (e : Execution) (s : State Value) (j : Journal Value)
    (events : List AppEvent) : Prop where
  active : s.activeRuns e.runId = none
  events : s.events e = .queryStarted e.runId :: j.batches.map e.rowsReceived
    ++ events
  departures : j.departures = 1

/-- The record of the run says what happened. -/
structure Recorded (e : Execution) (s : State Value) (j : Journal Value)
    (run : QueryRun Value) : Prop where
  completed : s.completedRuns e.runId = some run
  id : run.id = e.runId
  outcome : run.outcome = j.outcome
  insertions : j.insertions = 1

/-- The service agrees with the journal. -/
def Faithful (e : Execution) (s : State Value) (j : Journal Value) : Prop :=
  match s.phase with
  | .start => Unregistered e s j []
  | .announcing _ => Unregistered e s j []
  | .registering _ => Unregistered e s j [.queryStarted e.runId]
  | .selecting => Registered e s j [] [] ∧ Unopened j
  | .borrowing => Registered e s j [] [] ∧ Unopened j
  | .capturing => Registered e s j [] [] ∧ Unopened j
  | .executing => Registered e s j [] [] ∧ Unopened j
  | .opened columns =>
      Registered e s j [] [] ∧ j.columns = [columns] ∧ j.batches = [] ∧
        j.failures = [] ∧ j.result = none
  | .streaming columns totalRows =>
      Registered e s j j.batches j.delivered ∧ Opened j columns totalRows
  | .received columns totalRows count =>
      ∃ told batch, j.batches = told ++ [batch] ∧ count = batch.rows.length ∧
        Registered e s j told j.delivered ∧ Opened j columns totalRows
  | .finishing result resultSet =>
      Registered e s j j.batches j.delivered ∧ Returned e s j result resultSet
  | .recording active result resultSet =>
      Removed e s j [] ∧ s.completedRuns e.runId = none ∧ j.insertions = 0 ∧
        active.cancelled = j.flagged ∧ active.queryRun = e.newRun ∧
        Returned e s j result resultSet
  | .closing outcome _ =>
      Removed e s j [] ∧ ∃ run result, Recorded e s j run ∧
        outcome = run.outcome ∧ Returned e s j result run.resultSet
  | .finished _ =>
      ∃ run result, Removed e s j [.queryFinished e.runId run.outcome] ∧
        Recorded e s j run ∧ Returned e s j result run.resultSet

/-! ## Steps of the execution -/

section Steps

variable {e : Execution} {s t : State Value} {j : Journal Value}

@[simp] theorem publish_events (s : State Value) (event : AppEvent) :
    (s.publish event).events e =
      s.events e ++ [event].filter (AppEvent.isAbout e.runId) :=
  List.filter_append _ _

/-- The flag of a registered run. -/
theorem Registered.flag {told : List (Batch Value)}
    {sink : List (SinkCall Value)} (h : Registered e s j told sink) :
    (s.activeRuns e.runId).map ActiveRun.cancelled = some j.flagged := by
  obtain ⟨active, hactive, hcancelled, -⟩ := h.active
  simp [hactive, hcancelled]

/-- The journal after a step at whose ends the run has the flag it had. -/
theorem write_of_flag
    (hs : (s.activeRuns e.runId).map ActiveRun.cancelled = some j.flagged)
    (ht : (t.activeRuns e.runId).map ActiveRun.cancelled = some j.flagged)
    (a : ExecAction Value) :
    j.write e s t a =
      { j with
        columns := j.columns ++ a.columns
        batches := j.batches ++ a.batches
        failures := j.failures ++ a.failures e
        result := t.phase.returns.or j.result
        insertions := j.insertions + a.inserts } := by
  obtain ⟨active, hactive, hcancelled⟩ := Option.map_eq_some_iff.1 hs
  obtain ⟨active', hactive', hcancelled'⟩ := Option.map_eq_some_iff.1 ht
  simp [Journal.write, State.flagged, departs, hactive, hactive', hcancelled']

/-- `run` returns an error that was replied, or that the flag called for. -/
theorem finishRun_failed {error : ServiceError} {a : ExecAction Value}
    (h : Registered e t j j.batches j.delivered)
    (hs : (s.activeRuns e.runId).map ActiveRun.cancelled = some j.flagged)
    (hcolumns : j.columns.length ≤ 1)
    (hbatches : j.batches ≠ [] → j.columns.length = 1)
    (hfailures : j.failures = [])
    (hreply : a.columns = [] ∧ a.batches = [] ∧ a.inserts = 0)
    (herror : a.failures e = [error] ∨
      a.failures e = [] ∧ j.flagged = true) :
    Faithful e (t.finishRun e (.error error))
      (j.write e s (t.finishRun e (.error error)) a) := by
  obtain ⟨hnocolumns, hnobatches, hnoinsert⟩ := hreply
  rw [write_of_flag hs (t := t.finishRun e (.error error)) h.flag]
  have hphase : (t.finishRun e (.error error)).phase =
      .finishing (.error error) none := by
    simp [State.finishRun]
  simp only [Faithful, hphase, hnocolumns, hnobatches, hnoinsert,
    List.append_nil, Nat.add_zero, hfailures, List.nil_append]
  refine ⟨⟨h.active, h.completed, h.events, h.sink, h.departures,
    h.insertions⟩, ?_⟩
  exact
    { returned := rfl
      sink := h.sink
      columns := hcolumns
      batches := hbatches
      succeeded := fun _ _ hok => by cases hok
      failed := fun _ herr => by
        cases herr
        exact ⟨rfl, herror.imp id And.right⟩ }

/-- The sink before the columns are known. -/
theorem Unopened.delivered (h : Unopened j) : j.delivered = [] := by
  simp [Journal.delivered, h.columns, h.batches]

/-- `run` fails before the driver has opened a stream. -/
theorem finishRun_unopened {error : ServiceError} {a : ExecAction Value}
    (h : Registered e t j [] []) (hj : Unopened j)
    (hs : (s.activeRuns e.runId).map ActiveRun.cancelled = some j.flagged)
    (hreply : a.columns = [] ∧ a.batches = [] ∧ a.inserts = 0)
    (herror : a.failures e = [error] ∨
      a.failures e = [] ∧ j.flagged = true) :
    Faithful e (t.finishRun e (.error error))
      (j.write e s (t.finishRun e (.error error)) a) := by
  apply finishRun_failed _ hs _ _ hj.failures hreply herror
  · rw [hj.delivered, hj.batches]
    exact h
  · simp [hj.columns]
  · simp [hj.batches]

/-- A step without a reply between two phases of a registered run. -/
theorem write_of_silent {a : ExecAction Value}
    (hs : (s.activeRuns e.runId).map ActiveRun.cancelled = some j.flagged)
    (ht : (t.activeRuns e.runId).map ActiveRun.cancelled = some j.flagged)
    (hphase : t.phase.returns = none)
    (hreply : a.columns = [] ∧ a.batches = [] ∧ a.failures e = [] ∧
      a.inserts = 0) :
    j.write e s t a = j := by
  obtain ⟨hcolumns, hbatches, hfailures, hinserts⟩ := hreply
  rw [write_of_flag hs ht, hcolumns, hbatches, hfailures, hinserts, hphase]
  simp

theorem Unregistered.write {events : List AppEvent} {a : ExecAction Value}
    (h : Unregistered e s j events) (ht : t.activeRuns e.runId = none)
    (hphase : t.phase.returns = none)
    (hreply : a.columns = [] ∧ a.batches = [] ∧ a.failures e = [] ∧
      a.inserts = 0) :
    j.write e s t a = .empty := by
  obtain ⟨hcolumns, hbatches, hfailures, hinserts⟩ := hreply
  simp [Journal.write, Journal.empty, h.journal, h.active, ht, hphase, hcolumns,
    hbatches, hfailures, hinserts, State.flagged, departs]

/-! ### Up to the registration -/

theorem consume_faithful (h : execNext e s .consume = some t)
    (hs : Faithful e s j) : Faithful e t (j.write e s t .consume) := by
  cases execStep_of_next h with
  | consume hphase ht =>
      simp only [Faithful, hphase] at hs
      have hj : j.write e s t .consume = .empty :=
        hs.write (by rw [ht]; exact hs.active) (by rw [ht]; rfl)
          ⟨rfl, rfl, rfl, rfl⟩
      rw [hj]
      subst ht
      exact ⟨hs.active, hs.completed, hs.events, hs.sink, rfl⟩

theorem announce_faithful (h : execNext e s .announce = some t)
    (hs : Faithful e s j) : Faithful e t (j.write e s t .announce) := by
  cases execStep_of_next h with
  | announce preCancelled hphase ht =>
      simp only [Faithful, hphase] at hs
      have hj : j.write e s t .announce = .empty :=
        hs.write (by rw [ht]; exact hs.active) (by rw [ht]; rfl)
          ⟨rfl, rfl, rfl, rfl⟩
      have hevents : (s.publish (.queryStarted e.runId)).events e =
          [.queryStarted e.runId] := by
        rw [publish_events, hs.events]
        simp [AppEvent.isAbout]
      rw [hj]
      subst ht
      exact ⟨hs.active, hs.completed, hevents, hs.sink, rfl⟩

/-- The state and the journal once the run is registered. -/
theorem Unregistered.register {preCancelled : Bool}
    (h : Unregistered e s j [.queryStarted e.runId])
    (hactive : t.activeRuns e.runId =
      some ⟨e.newRun, false, preCancelled⟩)
    (hcompleted : t.completedRuns = s.completedRuns)
    (hevents : t.published = s.published) (hsink : t.sink = s.sink) :
    Registered e t { Journal.empty with flagged := preCancelled } [] [] := by
  refine ⟨⟨_, hactive, rfl, rfl⟩, ?_, ?_, hsink.trans h.sink, rfl, rfl⟩
  · rw [hcompleted, h.completed]
  · rw [State.events, hevents]
    exact h.events

theorem Unregistered.write_register {preCancelled : Bool}
    (h : Unregistered e s j [.queryStarted e.runId])
    (hactive : t.activeRuns e.runId =
      some ⟨e.newRun, false, preCancelled⟩) :
    j.write e s t .register =
      { Journal.empty with
        flagged := preCancelled
        result := t.phase.returns } := by
  simp [Journal.write, Journal.empty, h.journal, h.active, hactive,
    State.flagged, departs, ExecAction.columns, ExecAction.batches,
    ExecAction.failures, ExecAction.inserts]

theorem register_faithful (h : execNext e s .register = some t)
    (hs : Faithful e s j) : Faithful e t (j.write e s t .register) := by
  have hnew : ∀ preCancelled, t.activeRuns = Function.update s.activeRuns e.runId
      (some ⟨e.newRun, false, preCancelled⟩) →
      t.activeRuns e.runId = some ⟨e.newRun, false, preCancelled⟩ := by
    intro preCancelled hactive
    rw [hactive]
    exact Function.update_self ..
  cases execStep_of_next h with
  | registerCancelled hphase ht =>
      -- an armed cancel: `run` returns at once
      simp only [Faithful, hphase] at hs
      have hactive := hnew true (by rw [ht]; rfl)
      have hregistered := hs.register hactive (by rw [ht]; rfl)
        (by rw [ht]; rfl) (by rw [ht]; rfl)
      have hreturns : t.phase = .finishing cancelledBeforeStart none := by
        rw [ht]
        simp [State.finishRun, cancelledBeforeStart]
      rw [hs.write_register hactive, Faithful, hreturns]
      refine ⟨⟨hregistered.active, hregistered.completed, hregistered.events,
        hregistered.sink, rfl, rfl⟩, ?_⟩
      exact
        { returned := rfl
          sink := hregistered.sink
          columns := Nat.zero_le 1
          batches := fun hne => absurd rfl hne
          succeeded := fun _ _ hok => by cases hok
          failed := fun _ _ => ⟨rfl, .inr rfl⟩ }
  | register hphase ht =>
      simp only [Faithful, hphase] at hs
      have hactive := hnew false (by rw [ht])
      have hregistered := hs.register hactive (by rw [ht]) (by rw [ht])
        (by rw [ht])
      have hphase' : t.phase = .selecting := by rw [ht]
      rw [hs.write_register hactive, Faithful, hphase']
      exact ⟨⟨hregistered.active, hregistered.completed, hregistered.events,
        hregistered.sink, rfl, rfl⟩, ⟨rfl, rfl, rfl, rfl⟩⟩

/-! ### Up to the stream -/

theorem select_faithful {entry : Option ConnEntry}
    (h : execNext e s (.select entry) = some t) (hs : Faithful e s j) :
    Faithful e t (j.write e s t (.select entry)) := by
  cases execStep_of_next h with
  | select hphase hselect ht =>
      simp only [Faithful, hphase] at hs
      obtain ⟨hregistered, hunopened⟩ := hs
      have hj : j.write e s t (.select entry) = j :=
        write_of_silent hregistered.flag (by rw [ht]; exact hregistered.flag)
          (by rw [ht]; rfl)
          ⟨rfl, rfl, by simp [ExecAction.failures, hselect], rfl⟩
      rw [hj]
      subst ht
      exact ⟨⟨hregistered.active, hregistered.completed, hregistered.events,
        hregistered.sink, hregistered.departures, hregistered.insertions⟩,
        hunopened⟩
  | selectFailed hphase hselect ht =>
      simp only [Faithful, hphase] at hs
      obtain ⟨hregistered, hunopened⟩ := hs
      subst ht
      exact finishRun_unopened hregistered hunopened hregistered.flag
        ⟨rfl, rfl, rfl⟩ (.inl (by simp [ExecAction.failures, hselect]))

theorem borrow_faithful {reply : Except PoolError Unit}
    (h : execNext e s (.borrow reply) = some t) (hs : Faithful e s j) :
    Faithful e t (j.write e s t (.borrow reply)) := by
  cases execStep_of_next h with
  | borrow hphase ht =>
      simp only [Faithful, hphase] at hs
      obtain ⟨hregistered, hunopened⟩ := hs
      have hj : j.write e s t (.borrow (.ok ())) = j :=
        write_of_silent hregistered.flag (by rw [ht]; exact hregistered.flag)
          (by rw [ht]; rfl) ⟨rfl, rfl, rfl, rfl⟩
      rw [hj]
      subst ht
      exact ⟨⟨hregistered.active, hregistered.completed, hregistered.events,
        hregistered.sink, hregistered.departures, hregistered.insertions⟩,
        hunopened⟩
  | borrowFailed hphase ht =>
      simp only [Faithful, hphase] at hs
      obtain ⟨hregistered, hunopened⟩ := hs
      subst ht
      exact finishRun_unopened hregistered hunopened hregistered.flag
        ⟨rfl, rfl, rfl⟩ (.inl rfl)

/-- The handle is stored, the rest of the entry stays. -/
theorem Registered.capture {active : ActiveRun Value}
    (h : Registered e s j [] []) (hactive : s.activeRuns e.runId = some active)
    (ht : t.activeRuns = Function.update s.activeRuns e.runId
      (some { active with cancelHandle := true }))
    (hcompleted : t.completedRuns = s.completedRuns)
    (hpublished : t.published = s.published) (hsink : t.sink = s.sink) :
    Registered e t j [] [] := by
  obtain ⟨active', hactive', hcancelled, hrun⟩ := h.active
  obtain rfl : active = active' := by
    rw [hactive'] at hactive
    exact (Option.some.inj hactive).symm
  refine ⟨⟨_, (congrFun ht e.runId).trans (Function.update_self ..), hcancelled,
    hrun⟩, ?_, ?_, ?_, h.departures, h.insertions⟩
  · rw [hcompleted, h.completed]
  · rw [State.events, hpublished]
    exact h.events
  · rw [hsink, h.sink]

theorem capture_faithful (h : execNext e s .capture = some t)
    (hs : Faithful e s j) : Faithful e t (j.write e s t .capture) := by
  cases execStep_of_next h with
  | capture hphase hactive hflag ht =>
      simp only [Faithful, hphase] at hs
      obtain ⟨hregistered, hunopened⟩ := hs
      have hregistered' : Registered e t j [] [] :=
        hregistered.capture hactive (by rw [ht]) (by rw [ht]) (by rw [ht])
          (by rw [ht])
      have hphase' : t.phase = .executing := by rw [ht]
      have hj : j.write e s t .capture = j :=
        write_of_silent hregistered.flag hregistered'.flag
          (by rw [hphase']; rfl) ⟨rfl, rfl, rfl, rfl⟩
      rw [hj, Faithful, hphase']
      exact ⟨hregistered', hunopened⟩
  | captureCancelled hphase hactive hflag ht =>
      simp only [Faithful, hphase] at hs
      obtain ⟨hregistered, hunopened⟩ := hs
      obtain ⟨active', hactive', hcancelled, -⟩ := hregistered.active
      rw [hactive] at hactive'
      obtain rfl := Option.some.inj hactive'
      subst ht
      exact finishRun_unopened (hregistered.capture hactive rfl rfl rfl rfl)
        hunopened hregistered.flag ⟨rfl, rfl, rfl⟩
        (.inr ⟨rfl, hcancelled ▸ hflag⟩)
  | captureMissing hphase hactive ht =>
      simp only [Faithful, hphase] at hs
      obtain ⟨active, hactive', -⟩ := hs.1.active
      rw [hactive] at hactive'
      cases hactive'

theorem execute_faithful {reply : Except DriverError (List ColumnSpec)}
    (h : execNext e s (.execute reply) = some t) (hs : Faithful e s j) :
    Faithful e t (j.write e s t (.execute reply)) := by
  cases execStep_of_next h with
  | execute hphase ht =>
      simp only [Faithful, hphase] at hs
      obtain ⟨hregistered, hunopened⟩ := hs
      rw [write_of_flag hregistered.flag (by rw [ht]; exact hregistered.flag)]
      subst ht
      refine ⟨⟨hregistered.active, hregistered.completed, hregistered.events,
        hregistered.sink, hregistered.departures, hregistered.insertions⟩, ?_⟩
      simp [ExecAction.columns, ExecAction.batches, ExecAction.failures,
        Phase.returns, hunopened.columns, hunopened.batches, hunopened.failures,
        hunopened.result]
  | executeFailed hphase ht =>
      simp only [Faithful, hphase] at hs
      obtain ⟨hregistered, hunopened⟩ := hs
      subst ht
      exact finishRun_unopened hregistered hunopened hregistered.flag
        ⟨rfl, rfl, rfl⟩ (.inl rfl)

/-! ### The stream -/

theorem deliverColumns_faithful (h : execNext e s .deliverColumns = some t)
    (hs : Faithful e s j) : Faithful e t (j.write e s t .deliverColumns) := by
  cases execStep_of_next h with
  | deliverColumns columns hphase ht =>
      simp only [Faithful, hphase] at hs
      obtain ⟨hregistered, hcolumns, hbatches, hfailures, hresult⟩ := hs
      have hj : j.write e s t .deliverColumns = j :=
        write_of_silent hregistered.flag (by rw [ht]; exact hregistered.flag)
          (by rw [ht]; rfl) ⟨rfl, rfl, rfl, rfl⟩
      rw [hj]
      subst ht
      refine ⟨⟨hregistered.active, hregistered.completed, ?_, ?_,
        hregistered.departures, hregistered.insertions⟩, ?_⟩
      · rw [hbatches]
        exact hregistered.events
      · simp [hregistered.sink, Journal.delivered, hcolumns, hbatches]
      · exact ⟨⟨columns, hcolumns, rfl⟩, by simp [Journal.rowCount, hbatches],
          hfailures, hresult⟩

theorem delivered_append (j : Journal Value) (batch : Batch Value)
    (k : Journal Value) (hcolumns : k.columns = j.columns)
    (hbatches : k.batches = j.batches ++ [batch]) :
    k.delivered = j.delivered ++ [.batch batch] := by
  simp [Journal.delivered, hcolumns, hbatches]

theorem nextBatch_faithful {reply : Except DriverError (Option (Batch Value))}
    (h : execNext e s (.nextBatch reply) = some t) (hs : Faithful e s j) :
    Faithful e t (j.write e s t (.nextBatch reply)) := by
  cases execStep_of_next h with
  | @nextBatch columns totalRows batch hphase ht =>
      -- the sink has the batch before its rows are announced
      simp only [Faithful, hphase] at hs
      obtain ⟨hregistered, hopened⟩ := hs
      rw [write_of_flag hregistered.flag (by rw [ht]; exact hregistered.flag)]
      subst ht
      refine ⟨j.batches, batch, rfl, rfl, ⟨hregistered.active,
        hregistered.completed, hregistered.events, ?_, hregistered.departures,
        hregistered.insertions⟩, ⟨?_, ?_, ?_, ?_⟩⟩
      · rw [delivered_append j batch _ (List.append_nil _) rfl]
        simp [hregistered.sink]
      · simpa [ExecAction.columns] using hopened.columns
      · simp [Journal.rowCount, ExecAction.batches, hopened.totalRows]
      · simp [ExecAction.failures, hopened.failures]
      · simp [Phase.returns, hopened.result]
  | streamEnd columns totalRows hphase ht =>
      simp only [Faithful, hphase] at hs
      obtain ⟨hregistered, hopened⟩ := hs
      obtain ⟨specs, hspecs, hmeta⟩ := hopened.columns
      have hphase' : t.phase = .finishing (.ok (columns, totalRows))
          (if e.collects then
            some ⟨columns, s.collectedRows, totalRows, false⟩ else none) := by
        rw [ht]
        cases hcollects : e.collects <;> simp [State.finishRun, hcollects]
      have hrows : t.collectedRows = s.collectedRows := by
        rw [ht]
        rfl
      rw [write_of_flag hregistered.flag (by rw [ht]; exact hregistered.flag),
        Faithful, hphase']
      simp only [ExecAction.columns, ExecAction.batches, ExecAction.failures,
        ExecAction.inserts, List.append_nil, Nat.add_zero]
      refine ⟨⟨?_, ?_, ?_, ?_, hregistered.departures, hregistered.insertions⟩,
        ?_⟩
      · rw [ht]
        exact hregistered.active
      · rw [ht]
        exact hregistered.completed
      · rw [ht]
        exact hregistered.events
      · rw [ht]
        exact hregistered.sink
      · exact
          { returned := rfl
            sink := by
              rw [ht]
              exact hregistered.sink
            columns := by simp [hspecs]
            batches := by simp [hspecs]
            succeeded := by
              rintro _ _ ⟨rfl, rfl⟩
              rw [hrows]
              exact ⟨hopened.failures, hopened.totalRows,
                ⟨specs, hspecs, hmeta⟩, rfl⟩
            failed := fun _ herror => by cases herror }
  | streamFailed columns totalRows hphase ht =>
      simp only [Faithful, hphase] at hs
      obtain ⟨hregistered, hopened⟩ := hs
      obtain ⟨specs, hspecs, hmeta⟩ := hopened.columns
      subst ht
      exact finishRun_failed hregistered hregistered.flag (by simp [hspecs])
        (by simp [hspecs]) hopened.failures ⟨rfl, rfl, rfl⟩ (.inl rfl)

theorem announceRows_faithful (h : execNext e s .announceRows = some t)
    (hs : Faithful e s j) : Faithful e t (j.write e s t .announceRows) := by
  cases execStep_of_next h with
  | announceRows columns totalRows count hphase ht =>
      simp only [Faithful, hphase] at hs
      obtain ⟨told, batch, hbatches, rfl, hregistered, hopened⟩ := hs
      have hj : j.write e s t .announceRows = j :=
        write_of_silent hregistered.flag (by rw [ht]; exact hregistered.flag)
          (by rw [ht]; rfl) ⟨rfl, rfl, rfl, rfl⟩
      have hevents :
          (s.publish (.rowsReceived e.runId batch.rows.length)).events e =
            .queryStarted e.runId :: j.batches.map e.rowsReceived := by
        rw [publish_events, hregistered.events, hbatches]
        simp [AppEvent.isAbout, Execution.rowsReceived]
      rw [hj]
      subst ht
      exact ⟨⟨hregistered.active, hregistered.completed, hevents,
        hregistered.sink, hregistered.departures, hregistered.insertions⟩,
        hopened⟩

/-! ### The end -/

theorem remove_faithful (h : execNext e s .remove = some t)
    (hs : Faithful e s j) : Faithful e t (j.write e s t .remove) := by
  cases execStep_of_next h with
  | @remove result resultSet active hphase hactive ht =>
      simp only [Faithful, hphase] at hs
      obtain ⟨hregistered, hreturned⟩ := hs
      obtain ⟨active', hactive', hcancelled, hrun⟩ := hregistered.active
      obtain rfl : active = active' := by
        rw [hactive'] at hactive
        exact (Option.some.inj hactive).symm
      have hremoved : t.activeRuns e.runId = none := by
        rw [ht]
        exact Function.update_self ..
      have hphase' : t.phase = .recording active result resultSet := by
        rw [ht]
      have hj : j.write e s t .remove = { j with departures := 1 } := by
        simp [Journal.write, State.flagged, departs, hactive, hremoved, hphase',
          Phase.returns, ExecAction.columns, ExecAction.batches,
          ExecAction.failures, ExecAction.inserts, hregistered.departures]
      rw [hj, Faithful, hphase']
      refine ⟨⟨hremoved, ?_, rfl⟩, ?_, hregistered.insertions, hcancelled, hrun,
        ⟨hreturned.returned, ?_, hreturned.columns, hreturned.batches, ?_,
          hreturned.failed⟩⟩
      · rw [List.append_nil, ht]
        exact hregistered.events
      · rw [ht]
        exact hregistered.completed
      · rw [ht]
        exact hreturned.sink
      · rw [ht]
        exact hreturned.succeeded
  | removeMissing result resultSet hphase hactive ht =>
      simp only [Faithful, hphase] at hs
      obtain ⟨active, hactive', -⟩ := hs.1.active
      rw [hactive] at hactive'
      cases hactive'

/-- `finish` records the outcome that the replies call for. -/
theorem Returned.outcomeOf_eq {result : RunResult}
    {resultSet : Option (ResultSet Value)} {cancelled : Bool}
    (h : Returned e s j result resultSet) (hcancelled : cancelled = j.flagged) :
    outcomeOf cancelled result = j.outcome := by
  subst hcancelled
  unfold outcomeOf Journal.outcome
  cases hflagged : j.flagged with
  | true => rfl
  | false =>
      cases result with
      | ok value =>
          obtain ⟨hfailures, -⟩ := h.succeeded value.1 value.2 rfl
          simp [hfailures]
      | error error =>
          obtain ⟨-, hfailures | hflag⟩ := h.failed error rfl
          · simp [hfailures]
          · simp [hflagged] at hflag

theorem record_faithful {now : Int} (h : execNext e s (.record now) = some t)
    (hs : Faithful e s j) : Faithful e t (j.write e s t (.record now)) := by
  cases execStep_of_next h with
  | record active result resultSet hphase ht =>
      simp only [Faithful, hphase] at hs
      obtain ⟨hremoved, hcompleted, hinsertions, hcancelled, hrun, hreturned⟩ := hs
      have houtcome := hreturned.outcomeOf_eq hcancelled
      let run : QueryRun Value :=
        { active.queryRun with
          outcome := outcomeOf active.cancelled result
          finishedAt := some now
          resultSet := resultSet }
      have hrecorded : t.completedRuns e.runId = some run := by
        rw [ht]
        exact Function.update_self ..
      have hphase' : t.phase = .closing run.outcome
          (returnedOf e.runId active.cancelled result) := by
        rw [ht]
      have hactive : t.activeRuns e.runId = none := by
        rw [ht]
        exact hremoved.active
      have hj : j.write e s t (.record now) = { j with insertions := 1 } := by
        simp [Journal.write, State.flagged, departs, hremoved.active, hactive,
          hphase', Phase.returns, ExecAction.columns, ExecAction.batches,
          ExecAction.failures, ExecAction.inserts, hinsertions]
      rw [hj, Faithful, hphase']
      refine ⟨⟨hactive, ?_, hremoved.departures⟩, run, result,
        ⟨hrecorded, ?_, houtcome, rfl⟩, rfl, ⟨hreturned.returned, ?_,
          hreturned.columns, hreturned.batches, ?_, hreturned.failed⟩⟩
      · rw [ht]
        exact hremoved.events
      · exact congrArg QueryRun.id hrun
      · rw [ht]
        exact hreturned.sink
      · rw [ht]
        exact hreturned.succeeded

theorem announceFinish_faithful (h : execNext e s .announceFinish = some t)
    (hs : Faithful e s j) : Faithful e t (j.write e s t .announceFinish) := by
  cases execStep_of_next h with
  | announceFinish outcome returned hphase ht =>
      simp only [Faithful, hphase] at hs
      obtain ⟨hremoved, run, result, hrecorded, rfl, hreturned⟩ := hs
      have hactive : t.activeRuns e.runId = none := by
        rw [ht]
        exact hremoved.active
      have hphase' : t.phase.returns = none := by
        rw [ht]
        rfl
      have hj : j.write e s t .announceFinish = j := by
        simp [Journal.write, State.flagged, departs, hremoved.active, hactive,
          hphase', ExecAction.columns, ExecAction.batches, ExecAction.failures,
          ExecAction.inserts]
      have hevents :
          (s.publish (.queryFinished e.runId run.outcome)).events e =
            .queryStarted e.runId :: j.batches.map e.rowsReceived
              ++ [.queryFinished e.runId run.outcome] := by
        rw [publish_events, hremoved.events]
        simp [AppEvent.isAbout]
      rw [hj]
      subst ht
      exact ⟨run, result, ⟨hactive, hevents, hremoved.departures⟩,
        ⟨hrecorded.completed, hrecorded.id, hrecorded.outcome,
          hrecorded.insertions⟩,
        ⟨hreturned.returned, hreturned.sink, hreturned.columns,
          hreturned.batches, hreturned.succeeded, hreturned.failed⟩⟩

/-- A step of the execution keeps the service in agreement with the journal. -/
theorem execNext_faithful {a : ExecAction Value}
    (h : execNext e s a = some t) (hs : Faithful e s j) :
    Faithful e t (j.write e s t a) := by
  cases a with
  | consume => exact consume_faithful h hs
  | announce => exact announce_faithful h hs
  | register => exact register_faithful h hs
  | select entry => exact select_faithful h hs
  | borrow reply => exact borrow_faithful h hs
  | capture => exact capture_faithful h hs
  | execute reply => exact execute_faithful h hs
  | deliverColumns => exact deliverColumns_faithful h hs
  | nextBatch reply => exact nextBatch_faithful h hs
  | announceRows => exact announceRows_faithful h hs
  | remove => exact remove_faithful h hs
  | record now => exact record_faithful h hs
  | announceFinish => exact announceFinish_faithful h hs

/-! ## Steps of a cancel -/

/-- What a step of a cancel may do to the state and the journal: flag a
registered run. -/
structure MayFlag (e : Execution) (s t : State Value) (j k : Journal Value) :
    Prop where
  unregistered : s.activeRuns e.runId = none →
    t.activeRuns e.runId = none ∧ k = j
  registered : ∀ active, s.activeRuns e.runId = some active →
    active.cancelled = j.flagged →
    ∃ active', t.activeRuns e.runId = some active' ∧
      active'.cancelled = k.flagged ∧ active'.queryRun = active.queryRun
  flagged : j.flagged = true → k.flagged = true
  journal : k = { j with flagged := k.flagged }
  phase : t.phase = s.phase
  completed : t.completedRuns = s.completedRuns
  published : t.published = s.published
  sink : t.sink = s.sink

theorem cancelNext_cases {i : Nat} {a : CancelAction}
    (h : cancelNext e.runId s i a = some t) :
    (∃ pendingCancels cancels,
      t = { s with pendingCancels := pendingCancels, cancels := cancels }) ∨
    ∃ active cancels, s.activeRuns e.runId = some active ∧
      t = { s with
        activeRuns := Function.update s.activeRuns e.runId
          (some { active with cancelled := true, cancelHandle := false })
        cancels := cancels } := by
  unfold cancelNext at h
  split at h
  · split at h
    · rename_i active hactive
      exact .inr ⟨active, _, hactive, (Option.some.inj h).symm⟩
    · exact .inl ⟨_, _, (Option.some.inj h).symm⟩
  · exact .inl ⟨_, _, (Option.some.inj h).symm⟩
  · exact .inl ⟨_, _, (Option.some.inj h).symm⟩
  · exact .inl ⟨_, _, (Option.some.inj h).symm⟩
  · cases h

/-- The journal after a step of a cancel. -/
def Journal.flag (e : Execution) (j : Journal Value) (s t : State Value) :
    Journal Value :=
  { j with
    flagged := j.flagged || t.flagged e
    departures := j.departures + departs e s t }

theorem flag_of_unregistered (hs : s.activeRuns e.runId = none)
    (ht : t.activeRuns e.runId = none) : j.flag e s t = j := by
  simp [Journal.flag, State.flagged, departs, hs, ht]

theorem mayFlag_of_cancelNext {i : Nat} {a : CancelAction}
    (h : cancelNext e.runId s i a = some t) :
    MayFlag e s t j (j.flag e s t) := by
  rcases cancelNext_cases h with ⟨pendingCancels, cancels, rfl⟩ |
    ⟨active, cancels, hactive, rfl⟩
  · refine ⟨fun hs => ⟨hs, flag_of_unregistered hs hs⟩, ?_, ?_, ?_, rfl, rfl,
      rfl, rfl⟩
    · intro active hactive hcancelled
      exact ⟨active, hactive, by
        simp [Journal.flag, State.flagged, hactive, hcancelled], rfl⟩
    · intro hflagged
      simp [Journal.flag, hflagged]
    · cases hrun : s.activeRuns e.runId <;>
        simp [Journal.flag, departs, hrun]
  · refine ⟨fun hs => ?_, ?_, ?_, ?_, rfl, rfl, rfl, rfl⟩
    · rw [hs] at hactive
      cases hactive
    · intro active' hactive' _
      obtain rfl := Option.some.inj (hactive.symm.trans hactive')
      exact ⟨_, Function.update_self .., by
        simp [Journal.flag, State.flagged], rfl⟩
    · intro hflagged
      simp [Journal.flag, hflagged]
    · simp [Journal.flag, departs]

variable {k : Journal Value}

theorem MayFlag.events (h : MayFlag e s t j k) : t.events e = s.events e := by
  rw [State.events, h.published]
  rfl

theorem MayFlag.unregister {events : List AppEvent} (h : MayFlag e s t j k)
    (hs : Unregistered e s j events) : Unregistered e t k events where
  active := (h.unregistered hs.active).1
  completed := by rw [h.completed, hs.completed]
  events := by rw [h.events, hs.events]
  sink := by rw [h.sink, hs.sink]
  journal := by rw [(h.unregistered hs.active).2, hs.journal]

theorem MayFlag.register {told : List (Batch Value)}
    {sink : List (SinkCall Value)} (h : MayFlag e s t j k)
    (hs : Registered e s j told sink) : Registered e t k told sink where
  active := by
    obtain ⟨active, hactive, hcancelled, hrun⟩ := hs.active
    obtain ⟨active', hactive', hcancelled', hrun'⟩ :=
      h.registered active hactive hcancelled
    exact ⟨active', hactive', hcancelled', hrun'.trans hrun⟩
  completed := by rw [h.completed, hs.completed]
  events := by rw [h.events, hs.events]
  sink := by rw [h.sink, hs.sink]
  departures := by rw [h.journal]; exact hs.departures
  insertions := by rw [h.journal]; exact hs.insertions

theorem MayFlag.remove {events : List AppEvent} (h : MayFlag e s t j k)
    (hs : Removed e s j events) : Removed e t k events where
  active := (h.unregistered hs.active).1
  events := by rw [h.events, (h.unregistered hs.active).2, hs.events]
  departures := by rw [(h.unregistered hs.active).2, hs.departures]

theorem MayFlag.return {result : RunResult}
    {resultSet : Option (ResultSet Value)} (h : MayFlag e s t j k)
    (hs : Returned e s j result resultSet) :
    Returned e t k result resultSet := by
  have hrows : t.collectedRows = s.collectedRows := by
    rw [State.collectedRows, h.sink]
    rfl
  have hflagged := h.flagged
  obtain ⟨flagged, hk⟩ : ∃ flagged, k = { j with flagged := flagged } :=
    ⟨k.flagged, h.journal⟩
  subst hk
  refine ⟨hs.returned, ?_, hs.columns, hs.batches, ?_, ?_⟩
  · rw [h.sink]
    exact hs.sink
  · rw [hrows]
    exact hs.succeeded
  · intro error herror
    obtain ⟨hset, hfailed⟩ := hs.failed error herror
    exact ⟨hset, hfailed.imp id hflagged⟩

theorem MayFlag.record {run : QueryRun Value} (h : MayFlag e s t j k)
    (hs : s.activeRuns e.runId = none) (hrun : Recorded e s j run) :
    Recorded e t k run := by
  obtain rfl := (h.unregistered hs).2
  exact ⟨by rw [h.completed, hrun.completed], hrun.id, hrun.outcome,
    hrun.insertions⟩

theorem MayFlag.unopened (h : MayFlag e s t j k) (hj : Unopened j) :
    Unopened k := by
  rw [h.journal]
  exact ⟨hj.columns, hj.batches, hj.failures, hj.result⟩

theorem MayFlag.opened {columns : List ColumnMeta} {totalRows : Nat}
    (h : MayFlag e s t j k) (hj : Opened j columns totalRows) :
    Opened k columns totalRows := by
  rw [h.journal]
  exact ⟨hj.columns, hj.totalRows, hj.failures, hj.result⟩

theorem MayFlag.delivered (h : MayFlag e s t j k) : k.delivered = j.delivered := by
  rw [h.journal]
  rfl

theorem MayFlag.batches (h : MayFlag e s t j k) : k.batches = j.batches := by
  rw [h.journal]

/-- A cancel keeps the service in agreement with the journal. -/
theorem MayFlag.faithful (h : MayFlag e s t j k) (hs : Faithful e s j) :
    Faithful e t k := by
  unfold Faithful at hs ⊢
  rw [h.phase, h.delivered, h.batches]
  split at hs
  · exact h.unregister hs
  · exact h.unregister hs
  · exact h.unregister hs
  · exact ⟨h.register hs.1, h.unopened hs.2⟩
  · exact ⟨h.register hs.1, h.unopened hs.2⟩
  · exact ⟨h.register hs.1, h.unopened hs.2⟩
  · exact ⟨h.register hs.1, h.unopened hs.2⟩
  · exact ⟨h.register hs.1, by rw [h.journal]; exact hs.2⟩
  · exact ⟨h.register hs.1, h.opened hs.2⟩
  · obtain ⟨told, batch, hbatches, hcount, hregistered, hopened⟩ := hs
    exact ⟨told, batch, hbatches, hcount, h.register hregistered,
      h.opened hopened⟩
  · exact ⟨h.register hs.1, h.return hs.2⟩
  · obtain ⟨hremoved, hcompleted, hinsertions, hcancelled, hrun, hreturned⟩ := hs
    have hjournal := (h.unregistered hremoved.active).2
    exact ⟨h.remove hremoved, by rw [h.completed, hcompleted],
      by rw [hjournal, hinsertions], by rw [hjournal, hcancelled], hrun,
      h.return hreturned⟩
  · obtain ⟨hremoved, run, result, hrecorded, houtcome, hreturned⟩ := hs
    exact ⟨h.remove hremoved, run, result,
      h.record hremoved.active hrecorded, houtcome, h.return hreturned⟩
  · obtain ⟨run, result, hremoved, hrecorded, hreturned⟩ := hs
    exact ⟨run, result, h.remove hremoved,
      h.record hremoved.active hrecorded, h.return hreturned⟩

/-- Every step keeps the service in agreement with the journal. -/
theorem note_faithful {a : Action Value} (h : next e s a = some t)
    (hs : Faithful e s j) : Faithful e t (j.note e s a) := by
  cases a with
  | exec a =>
      have hj : j.note e s (.exec a) = j.write e s t a := by
        simp [Journal.note, h]
      rw [hj]
      exact execNext_faithful h hs
  | cancel i a =>
      have hj : j.note e s (.cancel i a) = j.flag e s t := by
        simp [Journal.note, h, Journal.flag]
      rw [hj]
      exact (mayFlag_of_cancelNext h).faithful hs

end Steps

/-! ## The life of a run -/

variable {e : Execution} {s : State Value} {j : Journal Value}

theorem faithful_of_fresh (h : Fresh e s) : Faithful e s .empty := by
  simp only [Faithful, h.phase]
  refine ⟨h.activeRuns, h.completedRuns, ?_, h.sink, rfl⟩
  rw [State.events, List.filter_eq_nil_iff]
  intro event hevent
  simp [h.published event hevent]

/-- In every interleaving the service agrees with the journal. -/
theorem faithful_of_reachable (h : (journalled e).Reachable (s, j)) :
    Faithful e s j := by
  refine System.Reachable.invariant (M := journalled e)
    (I := fun p => Faithful e p.1 p.2) ?_ ?_ h
  · rintro ⟨s₀, j₀⟩ ⟨hfresh, hj⟩
    obtain rfl : j₀ = .empty := hj
    exact faithful_of_fresh hfresh
  · rintro ⟨s, j⟩ a ⟨t, k⟩ ⟨hstep, hk⟩ hs
    obtain rfl : k = j.note e s a := hk
    exact note_faithful hstep hs

/-- The rows that an event announces. -/
def announcedRows : AppEvent → Nat
  | .rowsReceived _ count => count
  | _ => 0

/-- What is left of a run that has completed. -/
structure Completed (e : Execution) (s : State Value) (j : Journal Value)
    (run : QueryRun Value) : Prop where
  /-- one event of its start, one for each batch, one of its end, and no more -/
  events : s.events e = .queryStarted e.runId :: j.batches.map e.rowsReceived
    ++ [.queryFinished e.runId run.outcome]
  /-- it has left `active_runs`, once -/
  active : s.activeRuns e.runId = none ∧ j.departures = 1
  /-- it has entered `completed_runs`, once -/
  completed : s.completedRuns e.runId = some run ∧ run.id = e.runId ∧
    j.insertions = 1
  /-- the outcome that its flag and the replies call for -/
  outcome : run.outcome = j.outcome
  /-- the sink has the columns, then the batches in order -/
  sink : s.sink = j.columns.map SinkCall.columns
    ++ j.batches.map SinkCall.batch
  /-- there are columns, once, if there is a batch -/
  columns : j.columns.length ≤ 1 ∧ (j.batches ≠ [] → j.columns.length = 1)
  /-- on success the announced rows, `total_rows` and the delivered rows agree -/
  rows : run.outcome = .success → ∃ columns totalRows,
    j.result = some (.ok (columns, totalRows)) ∧
      ((s.events e).map announcedRows).sum = totalRows ∧
      s.collectedRows.length = totalRows ∧
      run.resultSet = if e.collects then
        some ⟨columns, s.collectedRows, totalRows, false⟩ else none

theorem announcedRows_sum (e : Execution) (batches : List (Batch Value)) :
    ((batches.map e.rowsReceived).map announcedRows).sum =
      (batches.map fun batch => batch.rows.length).sum := by
  rw [List.map_map]
  rfl

theorem collectedRows_length (h : s.sink = j.delivered) :
    s.collectedRows.length = j.rowCount := by
  simp [State.collectedRows, h, Journal.delivered, Journal.rowCount,
    List.flatMap_map, List.length_flatMap]

/-- Whatever the connection and the driver reply, and whatever cancels arrive, a
run that has been executed to its end is completed as its replies and its flag
call for. -/
theorem completed_of_finished {returned : Except ServiceError QueryRunId}
    (h : (journalled e).Reachable (s, j))
    (hfinished : s.phase = .finished returned) :
    ∃ run, Completed e s j run := by
  have hs := faithful_of_reachable h
  simp only [Faithful, hfinished] at hs
  obtain ⟨run, result, hremoved, hrecorded, hreturned⟩ := hs
  refine ⟨run, hremoved.events, ⟨hremoved.active, hremoved.departures⟩,
    ⟨hrecorded.completed, hrecorded.id, hrecorded.insertions⟩,
    hrecorded.outcome, hreturned.sink, ⟨hreturned.columns, hreturned.batches⟩,
    ?_⟩
  intro hsuccess
  cases result with
  | ok value =>
      obtain ⟨columns, totalRows⟩ := value
      obtain ⟨-, htotal, -, hset⟩ := hreturned.succeeded columns totalRows rfl
      refine ⟨columns, totalRows, hreturned.returned, ?_, ?_, hset⟩
      · rw [hremoved.events, htotal, Journal.rowCount,
          ← announcedRows_sum e j.batches]
        simp [announcedRows]
      · rw [collectedRows_length hreturned.sink, htotal]
  | error error =>
      -- an error that was replied, or a flag, is not a success
      have houtcome := hrecorded.outcome.symm.trans hsuccess
      obtain ⟨-, hfailures | hflagged⟩ := hreturned.failed error rfl
      · unfold Journal.outcome at houtcome
        split at houtcome
        · cases houtcome
        · simp [hfailures] at houtcome
      · simp [Journal.outcome, hflagged] at houtcome

/-- A query whose driver replies two rows. -/
theorem completed_of_finished_two_rows :
    ∃ (e : Execution) (s : State Nat) (j : Journal Nat) (run : QueryRun Nat),
      Completed e s j run ∧ j.rowCount = 2 := by
  let e : Execution := ⟨⟨"r"⟩, ⟨"q"⟩, "SELECT 1", ⟨"c"⟩, 0, true⟩
  let pools : PoolSet := ⟨⟨0, .user, 8⟩, ⟨0, .metadata, 1⟩⟩
  let ls : List (Action Nat) :=
    [.exec .consume, .exec .announce, .exec .register,
      .exec (.select (some ⟨.connected, some pools⟩)), .exec (.borrow (.ok ())),
      .exec .capture, .exec (.execute (.ok [])), .exec .deliverColumns,
      .exec (.nextBatch (.ok (some ⟨[[1], [2]], 0⟩))), .exec .announceRows,
      .exec (.nextBatch (.ok none)), .exec .remove, .exec (.record 0),
      .exec .announceFinish]
  let after := System.follow (System.watchNext (next e) (Journal.note e))
    (State.new, Journal.empty) ls
  have hsome : after.isSome = true := by decide
  obtain ⟨⟨s, j⟩, hsj⟩ := Option.isSome_iff_exists.1 hsome
  have hread : after.map (fun p => (p.1.phase.isFinished, p.2.rowCount)) =
      some (true, 2) := by decide
  rw [hsj] at hread
  obtain ⟨hfinished, hrows⟩ := Prod.mk.inj (Option.some.inj hread)
  obtain ⟨returned, hphase⟩ := Phase.exists_of_isFinished hfinished
  have hrun : (journalled e).Run (State.new, Journal.empty) ls (s, j) :=
    System.run_of_follow System.watch_step_of_watchNext hsj
  have hreachable : (journalled e).Reachable (s, j) :=
    ⟨(State.new, Journal.empty), ls, ⟨fresh_new e, rfl⟩, hrun⟩
  obtain ⟨run, hcompleted⟩ := completed_of_finished hreachable hphase
  exact ⟨e, s, j, run, hcompleted, hrows⟩

end Tempr.Services.QueryService
