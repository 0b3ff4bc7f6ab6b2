import Mathlib.Data.List.Basic
import Tempr.Support.Transition
import Tempr.Services.Connection

/-!
# The query service

One execution of a query and any number of `cancel` calls for its run, as a
system whose steps are the lock sections, driver calls, sink calls and
publications of `run`, `finish` and `cancel`. The three maps of the service have
a lock each, so calls interleave between any two of these steps.
-/

namespace Tempr.Services

open Tempr.Support

/-! ## Queries and results -/

structure ColumnMeta where
  name : String
  dataType : String
  nullable : Bool
  ordinal : Nat
  deriving DecidableEq, Repr

inductive ValueType
  | null
  | bool
  | int
  | float
  | string
  | bytes
  | uuid
  | json
  | timestamp
  | date
  | time
  | numeric
  | array
  | custom
  deriving DecidableEq, Repr

/-- The metadata of a column of a stream. -/
structure ColumnSpec where
  name : String
  ordinal : Nat
  dataType : String
  valueType : ValueType
  nullable : Bool
  tableSchema : Option String
  tableName : Option String
  deriving DecidableEq, Repr

def columnMeta (columns : List ColumnSpec) : List ColumnMeta :=
  columns.map fun c =>
    { name := c.name, dataType := c.dataType, nullable := c.nullable,
      ordinal := c.ordinal }

/-- Some rows of a stream, with cells of type `Value`. -/
structure Batch (Value : Type) where
  rows : List (List Value)
  batchIndex : Nat

structure ResultSet (Value : Type) where
  columns : List ColumnMeta
  rows : List (List Value)
  totalRows : Nat
  truncated : Bool

structure Query where
  id : QueryId
  text : String
  offsetStart : Nat
  offsetEnd : Nat
  deriving DecidableEq, Repr

/-- The record of a run. Times are milliseconds. -/
structure QueryRun (Value : Type) where
  id : QueryRunId
  query : Query
  connectionId : ConnectionId
  startedAt : Int
  finishedAt : Option Int
  outcome : QueryOutcome
  resultSet : Option (ResultSet Value)

/-- A run between its registration and its end. -/
structure ActiveRun (Value : Type) where
  queryRun : QueryRun Value
  cancelHandle : Bool
  cancelled : Bool

namespace QueryService

variable {Value : Type}

/-! ## States -/

/-- One call of `execute` (`collects`) or of `execute_streaming_with_id`. -/
structure Execution where
  runId : QueryRunId
  queryId : QueryId
  sql : String
  connectionId : ConnectionId
  startedAt : Int
  collects : Bool

/-- What `run` returns: the columns and the number of rows. -/
abbrev RunResult :=
  Except ServiceError (List ColumnMeta × Nat)

inductive SinkCall (Value : Type)
  | columns (columns : List ColumnSpec)
  | batch (batch : Batch Value)

/-- Where the execution stands: what it does next. -/
inductive Phase (Value : Type)
  /-- `run`: take the armed cancel from `pending_cancels` -/
  | start
  /-- `run`: publish `QueryStarted` -/
  | announcing (preCancelled : Bool)
  /-- `run`: insert the run in `active_runs` -/
  | registering (preCancelled : Bool)
  /-- `with_pool`: read the entry of the connection -/
  | selecting
  /-- `with_pool`: wait for a connection of the pool -/
  | borrowing
  /-- `run`: store the cancel handle, read the cancelled flag -/
  | capturing
  /-- `run`: wait for the driver to execute the query -/
  | executing
  /-- `run`: hand the columns to the sink -/
  | opened (columns : List ColumnSpec)
  /-- `run`: wait for the next batch -/
  | streaming (columns : List ColumnMeta) (totalRows : Nat)
  /-- `run`: publish `RowsReceived` -/
  | received (columns : List ColumnMeta) (totalRows count : Nat)
  /-- `finish`: remove the run from `active_runs` -/
  | finishing (result : RunResult) (resultSet : Option (ResultSet Value))
  /-- `finish`: insert the run in `completed_runs` -/
  | recording (active : ActiveRun Value) (result : RunResult)
      (resultSet : Option (ResultSet Value))
  /-- `finish`: publish `QueryFinished` -/
  | closing (outcome : QueryOutcome)
      (returned : Except ServiceError QueryRunId)
  | finished (returned : Except ServiceError QueryRunId)

/-- Where a `cancel` call stands. -/
inductive CancelPhase
  | idle
  /-- the run is not in `active_runs`: read `completed_runs` -/
  | missed
  /-- nor in `completed_runs`: arm the cancel in `pending_cancels` -/
  | arming
  /-- the run is flagged: wait for the driver to be told -/
  | signalling
  | returned
  deriving DecidableEq, Repr

structure State (Value : Type) where
  activeRuns : QueryRunId → Option (ActiveRun Value)
  completedRuns : QueryRunId → Option (QueryRun Value)
  pendingCancels : QueryRunId → Bool
  published : List AppEvent
  sink : List (SinkCall Value)
  phase : Phase Value
  cancels : Nat → CancelPhase

/-! ## Steps of the execution -/

/-- The steps of the execution, with what the connection, the driver and the
clock reply. -/
inductive ExecAction (Value : Type)
  | consume
  | announce
  | register
  | select (entry : Option ConnEntry)
  | borrow (reply : Except PoolError Unit)
  | capture
  | execute (reply : Except DriverError (List ColumnSpec))
  | deliverColumns
  | nextBatch (reply : Except DriverError (Option (Batch Value)))
  | announceRows
  | remove
  | record (now : Int)
  | announceFinish

namespace State

def publish (s : State Value) (event : AppEvent) : State Value :=
  { s with published := s.published ++ [event] }

/-- The rows that the collecting sink holds. -/
def collectedRows (s : State Value) : List (List Value) :=
  s.sink.flatMap fun call =>
    match call with
    | .columns _ => []
    | .batch batch => batch.rows

/-- `run` returns `result`; `execute` collects the rows before it finishes. -/
def finishRun (e : Execution) (s : State Value) (result : RunResult) :
    State Value :=
  let resultSet : Option (ResultSet Value) :=
    match e.collects, result with
    | true, .ok (columns, totalRows) =>
        some { columns, rows := s.collectedRows, totalRows, truncated := false }
    | _, _ => none
  { s with phase := .finishing result resultSet }

end State

/-- The errors of the driver reach `run` through `with_pool`. -/
def driverFailed (error : DriverError) : RunResult :=
  .error (.queryFailed "ConnectionService" error.toString)

def borrowFailed (error : PoolError) : RunResult :=
  .error (.queryFailed "ConnectionService" (poolErrorReason error))

def cancelledBeforeStart : RunResult :=
  .error (.queryFailed "QueryService" "cancelled before start")

def mapResult (runId : QueryRunId) :
    RunResult → Except ServiceError QueryRunId
  | .ok _ => .ok runId
  | .error (.queryFailed name reason) => .error (.queryFailed name reason)
  | .error other => .error (.queryFailed "QueryService" other.toString)

/-- The run as `run` registers it. -/
def Execution.newRun (e : Execution) : QueryRun Value where
  id := e.runId
  query :=
    { id := e.queryId, text := e.sql, offsetStart := 0,
      offsetEnd := e.sql.utf8ByteSize }
  connectionId := e.connectionId
  startedAt := e.startedAt
  finishedAt := none
  outcome := .success
  resultSet := none

/-- The outcome that `finish` records. -/
def outcomeOf (cancelled : Bool) (result : RunResult) : QueryOutcome :=
  if cancelled then .cancelled
  else
    match result with
    | .ok _ => .success
    | .error error => .error error.toString

/-- What `finish` returns once the run is recorded. -/
def returnedOf (runId : QueryRunId) (cancelled : Bool) (result : RunResult) :
    Except ServiceError QueryRunId :=
  if cancelled then .ok runId else mapResult runId result

/-- One step of the execution. -/
def execNext (e : Execution) (s : State Value) :
    ExecAction Value → Option (State Value)
  | .consume =>
      match s.phase with
      | .start =>
          some { s with
            pendingCancels := Function.update s.pendingCancels e.runId false
            phase := .announcing (s.pendingCancels e.runId) }
      | _ => none
  | .announce =>
      match s.phase with
      | .announcing preCancelled =>
          some { s.publish (.queryStarted e.runId) with
            phase := .registering preCancelled }
      | _ => none
  | .register =>
      match s.phase with
      | .registering preCancelled =>
          let registered : State Value :=
            { s with
              activeRuns := Function.update s.activeRuns e.runId
                (some ⟨e.newRun, false, preCancelled⟩) }
          if preCancelled then some (registered.finishRun e cancelledBeforeStart)
          else some { registered with phase := .selecting }
      | _ => none
  | .select entry =>
      match s.phase with
      | .selecting =>
          match selectPool e.connectionId entry with
          | .ok _ => some { s with phase := .borrowing }
          | .error error => some (s.finishRun e (.error error))
      | _ => none
  | .borrow reply =>
      match s.phase, reply with
      | .borrowing, .ok () => some { s with phase := .capturing }
      | .borrowing, .error error => some (s.finishRun e (borrowFailed error))
      | _, _ => none
  | .capture =>
      match s.phase with
      | .capturing =>
          match s.activeRuns e.runId with
          | some active =>
              let captured : State Value :=
                { s with
                  activeRuns := Function.update s.activeRuns e.runId
                    (some { active with cancelHandle := true }) }
              if active.cancelled then
                some (captured.finishRun e (driverFailed .cancelled))
              else some { captured with phase := .executing }
          | none => some { s with phase := .executing }
      | _ => none
  | .execute reply =>
      match s.phase, reply with
      | .executing, .ok columns => some { s with phase := .opened columns }
      | .executing, .error error => some (s.finishRun e (driverFailed error))
      | _, _ => none
  | .deliverColumns =>
      match s.phase with
      | .opened columns =>
          some { s with
            sink := s.sink ++ [.columns columns]
            phase := .streaming (columnMeta columns) 0 }
      | _ => none
  | .nextBatch reply =>
      match s.phase, reply with
      | .streaming columns totalRows, .ok (some batch) =>
          some { s with
            sink := s.sink ++ [.batch batch]
            phase :=
              .received columns (totalRows + batch.rows.length)
                batch.rows.length }
      | .streaming columns totalRows, .ok none =>
          some (s.finishRun e (.ok (columns, totalRows)))
      | .streaming _ _, .error error => some (s.finishRun e (driverFailed error))
      | _, _ => none
  | .announceRows =>
      match s.phase with
      | .received columns totalRows count =>
          some { s.publish (.rowsReceived e.runId count) with
            phase := .streaming columns totalRows }
      | _ => none
  | .remove =>
      match s.phase with
      | .finishing result resultSet =>
          let removed : State Value :=
            { s with
              activeRuns := Function.update s.activeRuns e.runId none }
          match s.activeRuns e.runId with
          | some active =>
              some { removed with phase := .recording active result resultSet }
          | none =>
              some { removed with phase := .finished (mapResult e.runId result) }
      | _ => none
  | .record now =>
      match s.phase with
      | .recording active result resultSet =>
          let outcome := outcomeOf active.cancelled result
          let run : QueryRun Value :=
            { active.queryRun with
              outcome
              finishedAt := some now
              resultSet }
          some { s with
            completedRuns := Function.update s.completedRuns e.runId (some run)
            phase :=
              .closing outcome (returnedOf e.runId active.cancelled result) }
      | _ => none
  | .announceFinish =>
      match s.phase with
      | .closing outcome returned =>
          some { s.publish (.queryFinished e.runId outcome) with
            phase := .finished returned }
      | _ => none

/-- What one step of the execution does. -/
inductive ExecStep (e : Execution) (s t : State Value) : ExecAction Value → Prop
  | consume (hphase : s.phase = .start)
      (ht : t = { s with
        pendingCancels := Function.update s.pendingCancels e.runId false
        phase := .announcing (s.pendingCancels e.runId) }) :
      ExecStep e s t .consume
  | announce (preCancelled : Bool) (hphase : s.phase = .announcing preCancelled)
      (ht : t = { s.publish (.queryStarted e.runId) with
        phase := .registering preCancelled }) :
      ExecStep e s t .announce
  /-- an armed cancel: `run` returns at once -/
  | registerCancelled (hphase : s.phase = .registering true)
      (ht : t = State.finishRun e
        { s with
          activeRuns := Function.update s.activeRuns e.runId
            (some ⟨e.newRun, false, true⟩) }
        cancelledBeforeStart) :
      ExecStep e s t .register
  | register (hphase : s.phase = .registering false)
      (ht : t = { s with
        activeRuns := Function.update s.activeRuns e.runId
          (some ⟨e.newRun, false, false⟩)
        phase := .selecting }) :
      ExecStep e s t .register
  | select {entry : Option ConnEntry} {pools : PoolSet}
      (hphase : s.phase = .selecting)
      (hselect : selectPool e.connectionId entry = .ok pools)
      (ht : t = { s with phase := .borrowing }) :
      ExecStep e s t (.select entry)
  | selectFailed {entry : Option ConnEntry} {error : ServiceError}
      (hphase : s.phase = .selecting)
      (hselect : selectPool e.connectionId entry = .error error)
      (ht : t = s.finishRun e (.error error)) :
      ExecStep e s t (.select entry)
  | borrow (hphase : s.phase = .borrowing)
      (ht : t = { s with phase := .capturing }) :
      ExecStep e s t (.borrow (.ok ()))
  | borrowFailed {error : PoolError} (hphase : s.phase = .borrowing)
      (ht : t = s.finishRun e (borrowFailed error)) :
      ExecStep e s t (.borrow (.error error))
  | capture {active : ActiveRun Value} (hphase : s.phase = .capturing)
      (hactive : s.activeRuns e.runId = some active)
      (hflag : active.cancelled = false)
      (ht : t = { s with
        activeRuns := Function.update s.activeRuns e.runId
          (some { active with cancelHandle := true })
        phase := .executing }) :
      ExecStep e s t .capture
  | captureCancelled {active : ActiveRun Value} (hphase : s.phase = .capturing)
      (hactive : s.activeRuns e.runId = some active)
      (hflag : active.cancelled = true)
      (ht : t = State.finishRun e
        { s with
          activeRuns := Function.update s.activeRuns e.runId
            (some { active with cancelHandle := true }) }
        (driverFailed .cancelled)) :
      ExecStep e s t .capture
  | captureMissing (hphase : s.phase = .capturing)
      (hactive : s.activeRuns e.runId = none)
      (ht : t = { s with phase := .executing }) :
      ExecStep e s t .capture
  | execute {columns : List ColumnSpec} (hphase : s.phase = .executing)
      (ht : t = { s with phase := .opened columns }) :
      ExecStep e s t (.execute (.ok columns))
  | executeFailed {error : DriverError} (hphase : s.phase = .executing)
      (ht : t = s.finishRun e (driverFailed error)) :
      ExecStep e s t (.execute (.error error))
  | deliverColumns (columns : List ColumnSpec)
      (hphase : s.phase = .opened columns)
      (ht : t = { s with
        sink := s.sink ++ [.columns columns]
        phase := .streaming (columnMeta columns) 0 }) :
      ExecStep e s t .deliverColumns
  | nextBatch (columns : List ColumnMeta) (totalRows : Nat)
      {batch : Batch Value} (hphase : s.phase = .streaming columns totalRows)
      (ht : t = { s with
        sink := s.sink ++ [.batch batch]
        phase :=
          .received columns (totalRows + batch.rows.length)
            batch.rows.length }) :
      ExecStep e s t (.nextBatch (.ok (some batch)))
  | streamEnd (columns : List ColumnMeta) (totalRows : Nat)
      (hphase : s.phase = .streaming columns totalRows)
      (ht : t = s.finishRun e (.ok (columns, totalRows))) :
      ExecStep e s t (.nextBatch (.ok none))
  | streamFailed (columns : List ColumnMeta) (totalRows : Nat)
      {error : DriverError} (hphase : s.phase = .streaming columns totalRows)
      (ht : t = s.finishRun e (driverFailed error)) :
      ExecStep e s t (.nextBatch (.error error))
  | announceRows (columns : List ColumnMeta) (totalRows count : Nat)
      (hphase : s.phase = .received columns totalRows count)
      (ht : t = { s.publish (.rowsReceived e.runId count) with
        phase := .streaming columns totalRows }) :
      ExecStep e s t .announceRows
  | remove (result : RunResult) (resultSet : Option (ResultSet Value))
      {active : ActiveRun Value} (hphase : s.phase = .finishing result resultSet)
      (hactive : s.activeRuns e.runId = some active)
      (ht : t = { s with
        activeRuns := Function.update s.activeRuns e.runId none
        phase := .recording active result resultSet }) :
      ExecStep e s t .remove
  | removeMissing (result : RunResult) (resultSet : Option (ResultSet Value))
      (hphase : s.phase = .finishing result resultSet)
      (hactive : s.activeRuns e.runId = none)
      (ht : t = { s with
        activeRuns := Function.update s.activeRuns e.runId none
        phase := .finished (mapResult e.runId result) }) :
      ExecStep e s t .remove
  | record (active : ActiveRun Value) (result : RunResult)
      (resultSet : Option (ResultSet Value)) {now : Int}
      (hphase : s.phase = .recording active result resultSet)
      (ht : t = { s with
        completedRuns := Function.update s.completedRuns e.runId
          (some { active.queryRun with
            outcome := outcomeOf active.cancelled result
            finishedAt := some now
            resultSet })
        phase :=
          .closing (outcomeOf active.cancelled result)
            (returnedOf e.runId active.cancelled result) }) :
      ExecStep e s t (.record now)
  | announceFinish (outcome : QueryOutcome)
      (returned : Except ServiceError QueryRunId)
      (hphase : s.phase = .closing outcome returned)
      (ht : t = { s.publish (.queryFinished e.runId outcome) with
        phase := .finished returned }) :
      ExecStep e s t .announceFinish

theorem execStep_of_next {e : Execution} {s t : State Value}
    {a : ExecAction Value} (h : execNext e s a = some t) : ExecStep e s t a := by
  cases a with
  | consume =>
      simp only [execNext] at h
      split at h
      · exact .consume ‹_› (Option.some.inj h).symm
      · cases h
  | announce =>
      simp only [execNext] at h
      split at h
      · exact .announce _ ‹_› (Option.some.inj h).symm
      · cases h
  | register =>
      simp only [execNext] at h
      split at h
      · split at h
        · subst ‹_ = true›
          exact .registerCancelled ‹_› (Option.some.inj h).symm
        · obtain rfl := Bool.eq_false_iff.2 ‹_›
          exact .register ‹_› (Option.some.inj h).symm
      · cases h
  | select entry =>
      simp only [execNext] at h
      split at h
      · split at h
        · exact .select ‹_› ‹_› (Option.some.inj h).symm
        · exact .selectFailed ‹_› ‹_› (Option.some.inj h).symm
      · cases h
  | borrow reply =>
      simp only [execNext] at h
      split at h
      · exact .borrow ‹_› (Option.some.inj h).symm
      · exact .borrowFailed ‹_› (Option.some.inj h).symm
      · cases h
  | capture =>
      simp only [execNext] at h
      split at h
      · split at h
        · split at h
          · exact .captureCancelled ‹_› ‹_› ‹_› (Option.some.inj h).symm
          · exact .capture ‹_› ‹_› (Bool.eq_false_iff.2 ‹_›)
              (Option.some.inj h).symm
        · exact .captureMissing ‹_› ‹_› (Option.some.inj h).symm
      · cases h
  | execute reply =>
      simp only [execNext] at h
      split at h
      · exact .execute ‹_› (Option.some.inj h).symm
      · exact .executeFailed ‹_› (Option.some.inj h).symm
      · cases h
  | deliverColumns =>
      simp only [execNext] at h
      split at h
      · exact .deliverColumns _ ‹_› (Option.some.inj h).symm
      · cases h
  | nextBatch reply =>
      simp only [execNext] at h
      split at h
      · exact .nextBatch _ _ ‹_› (Option.some.inj h).symm
      · exact .streamEnd _ _ ‹_› (Option.some.inj h).symm
      · exact .streamFailed _ _ ‹_› (Option.some.inj h).symm
      · cases h
  | announceRows =>
      simp only [execNext] at h
      split at h
      · exact .announceRows _ _ _ ‹_› (Option.some.inj h).symm
      · cases h
  | remove =>
      simp only [execNext] at h
      split at h
      · split at h
        · exact .remove _ _ ‹_› ‹_› (Option.some.inj h).symm
        · exact .removeMissing _ _ ‹_› ‹_› (Option.some.inj h).symm
      · cases h
  | record now =>
      simp only [execNext] at h
      split at h
      · exact .record _ _ _ ‹_› (Option.some.inj h).symm
      · cases h
  | announceFinish =>
      simp only [execNext] at h
      split at h
      · exact .announceFinish _ _ ‹_› (Option.some.inj h).symm
      · cases h

/-! ## Steps of a cancel -/

/-- The steps of a `cancel` call. -/
inductive CancelAction
  /-- flag the run in `active_runs` and take its handle -/
  | flag
  /-- look the run up in `completed_runs` -/
  | check
  /-- insert the run in `pending_cancels` -/
  | arm
  /-- the driver has been told, has failed, or has not answered in time -/
  | signal

/-- One step of the `cancel` call `i` for `runId`. -/
def cancelNext (runId : QueryRunId) (s : State Value) (i : Nat)
    (a : CancelAction) : Option (State Value) :=
  match s.cancels i, a with
  | .idle, .flag =>
      match s.activeRuns runId with
      | some active =>
          some { s with
            activeRuns := Function.update s.activeRuns runId
              (some { active with cancelled := true, cancelHandle := false })
            cancels := Function.update s.cancels i
              (if active.cancelHandle then .signalling else .returned) }
      | none => some { s with cancels := Function.update s.cancels i .missed }
  | .missed, .check =>
      some { s with
        cancels := Function.update s.cancels i
          (if (s.completedRuns runId).isSome then .returned else .arming) }
  | .arming, .arm =>
      some { s with
        pendingCancels := Function.update s.pendingCancels runId true
        cancels := Function.update s.cancels i .returned }
  | .signalling, .signal =>
      some { s with cancels := Function.update s.cancels i .returned }
  | _, _ => none

/-! ## The system -/

inductive Action (Value : Type)
  | exec (action : ExecAction Value)
  | cancel (i : Nat) (action : CancelAction)

def next (e : Execution) (s : State Value) :
    Action Value → Option (State Value)
  | .exec action => execNext e s action
  | .cancel i action => cancelNext e.runId s i action

/-- A service that has not heard of the run. -/
structure Fresh (e : Execution) (s : State Value) : Prop where
  phase : s.phase = .start
  cancels : ∀ i, s.cancels i = .idle
  activeRuns : s.activeRuns e.runId = none
  completedRuns : s.completedRuns e.runId = none
  pendingCancels : s.pendingCancels e.runId = false
  published : ∀ event ∈ s.published, event.isAbout e.runId = false
  sink : s.sink = []

/-- A service on which nothing has been executed. -/
def State.new : State Value where
  activeRuns _ := none
  completedRuns _ := none
  pendingCancels _ := false
  published := []
  sink := []
  phase := .start
  cancels _ := .idle

theorem fresh_new (e : Execution) : Fresh e (State.new : State Value) :=
  ⟨rfl, fun _ => rfl, rfl, rfl, rfl, by simp [State.new], rfl⟩

/-- The execution `e` and any number of cancels of its run, in any order. -/
def system (e : Execution) : System (State Value) (Action Value) :=
  .ofNext (Fresh e) (next e)

end QueryService

end Tempr.Services
