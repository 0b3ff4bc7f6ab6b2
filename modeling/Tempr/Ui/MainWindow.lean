import Mathlib.Data.List.DropRight
import Mathlib.Logic.Function.Basic
import Tempr.DbPostgres.Stream
import Tempr.Editor.WordMotion
import Tempr.Support.Executor
import Tempr.Support.Transition

/-!
# The main window

The window runs one query at a time.  The query is executed on other threads;
its rows and its outcome come back through channels to two tasks of the main
thread.  Every thread takes its steps at any time.  The executor of the main
thread and the channels are not the program's own, and are given.
-/

namespace Tempr.Ui

open Tempr.DbPostgres Tempr.Support
open Tempr.Services (AppEvent Batch ColumnSpec ConnectionId ConnectionState
  QueryId QueryOutcome QueryRunId QueryService.Execution QueryService.SinkCall
  QueryService.State ServiceError)

variable {Row Cell Value : Type}

/-! ## The result grid -/

structure ResultGrid (Value : Type) where
  columns : List ColumnSpec
  rows : List (List Value)
  /-- shown while there are no columns -/
  message : Option String

namespace ResultGrid

def new : ResultGrid Value :=
  ⟨[], [], some "Run a query (Enter or ctrl-enter) to see results here."⟩

/-- A new result begins. -/
def reset : ResultGrid Value := ⟨[], [], none⟩

def setColumns (_grid : ResultGrid Value) (columns : List ColumnSpec) :
    ResultGrid Value :=
  ⟨columns, [], none⟩

def append (grid : ResultGrid Value) (batch : Batch Value) :
    ResultGrid Value :=
  { grid with rows := grid.rows ++ batch.rows }

def setMessage (grid : ResultGrid Value) (message : String) :
    ResultGrid Value :=
  { grid with message := some message }

def rowCount (grid : ResultGrid Value) : ℕ := grid.rows.length

def columnCount (grid : ResultGrid Value) : ℕ := grid.columns.length

end ResultGrid

/-- A message of the sink of a run to the grid. -/
inductive GridMsg (Value : Type)
  | columns (columns : List ColumnSpec)
  | batch (batch : Batch Value)

namespace GridMsg

/-- The sink of a run sends what it is handed. -/
def ofSink : QueryService.SinkCall Value → GridMsg Value
  | .columns cs => .columns cs
  | .batch b => .batch b

/-- The grid after a message. -/
def apply (grid : ResultGrid Value) : GridMsg Value → ResultGrid Value
  | .columns cs => grid.setColumns cs
  | .batch b => grid.append b

end GridMsg

/-! ## The window -/

/-- What the window reads of its connection. -/
structure Connection where
  id : ConnectionId
  username : String
  host : String
  port : ℕ
  database : String
  deriving DecidableEq, Repr

/-- The events of the services that the window reacts to. -/
inductive UiEvent
  | connectionStateChanged (id : ConnectionId) (state : ConnectionState)
  | rowsReceived (run : QueryRunId) (count : ℕ)
  | schemaRefreshFailed (connection : ConnectionId) (message : String)
  deriving DecidableEq, Repr

/-- The task of a query has panicked or was aborted; how that is shown. -/
structure JoinError where
  text : String
  deriving DecidableEq, Repr

/-- How the task of a query ends. -/
abbrev QueryTaskOutcome := Except JoinError (Except ServiceError QueryRunId)

structure MainWindow (Value : Type) where
  connection : Option Connection
  connectionState : ConnectionState
  grid : ResultGrid Value
  status : String
  statusIsError : Bool
  /-- the run in flight -/
  currentRun : Option QueryRunId
  /-- what to run once connected -/
  startupSql : Option String

def rowWord (rows : ℕ) : String := if rows = 1 then "row" else "rows"

/-- A text without the whitespace around it. -/
def trim (text : String) : String :=
  String.ofList ((text.toList.dropWhile Editor.isWhitespace).rdropWhile
    Editor.isWhitespace)

def Connection.describe (connection : Connection) : String :=
  connection.username ++ "@" ++ connection.host ++ ":" ++
    Nat.repr connection.port ++ "/" ++ connection.database

namespace MainWindow

def setStatus (w : MainWindow Value) (text : String) (isError : Bool) :
    MainWindow Value :=
  { w with status := text, statusIsError := isError }

def connectionId (w : MainWindow Value) : Option ConnectionId :=
  w.connection.map Connection.id

/-- Begin to run a text, or say why not.  The text that is sent comes with its
connection. -/
def runSql (sql : String) (runId : QueryRunId) (w : MainWindow Value) :
    MainWindow Value × Option (String × ConnectionId) :=
  let sql := trim sql
  if sql.isEmpty then (w, none)
  else
    match w.connectionId with
    | none =>
        (w.setStatus "No connection configured (DATABASE_URL)." true, none)
    | some id =>
        if w.connectionState ≠ .connected then
          (w.setStatus ("Not connected (" ++
            Services.stateName w.connectionState ++ "); cannot run query.")
              true, none)
        else if w.currentRun.isSome then
          (w.setStatus "A query is already running." true, none)
        else
          ({ w with
              currentRun := some runId
              grid := .reset }.setStatus "Running…" false, some (sql, id))

def cancelQuery (w : MainWindow Value) : MainWindow Value :=
  match w.currentRun with
  | none => w.setStatus "No query running." false
  | some _ => w.setStatus "Cancelling…" false

/-- The run has come back, with what the service has recorded of it. -/
def onQueryOutcome (runId : QueryRunId) (outcome : QueryTaskOutcome)
    (completed : QueryRunId → Option QueryOutcome) (w : MainWindow Value) :
    MainWindow Value :=
  let w := if w.currentRun = some runId then { w with currentRun := none }
    else w
  match outcome with
  | .ok (.ok run) =>
      let rows := w.grid.rowCount
      let w :=
        if w.grid.columnCount = 0 then
          { w with
            grid := w.grid.setMessage "Statement executed; no rows returned." }
        else w
      if completed run = some .cancelled then
        w.setStatus ("Cancelled — " ++ Nat.repr rows ++ " " ++ rowWord rows ++
          " (partial)") false
      else w.setStatus ("Done — " ++ Nat.repr rows ++ " " ++ rowWord rows) false
  | .ok (.error e) =>
      let text := "Query failed: " ++ e.toString
      { w with grid := w.grid.setMessage text }.setStatus text true
  | .error join => w.setStatus ("Query task failed: " ++ join.text) true

/-- The status of a connection state. -/
def stateText (w : MainWindow Value) : ConnectionState → String
  | .connecting => "Connecting…"
  | .connected =>
      match w.connection with
      | some connection => "Connected to " ++ connection.describe
      | none => "Connected"
  | .reconnecting => "Reconnecting…"
  | .failed => "Connection failed"
  | .disconnected => "Disconnected"

/-- An event of the services.  The first time that the window is connected, it
runs the text that it was started with. -/
def onUiEvent (event : UiEvent) (runId : QueryRunId) (w : MainWindow Value) :
    MainWindow Value × Option (String × ConnectionId) :=
  match event with
  | .connectionStateChanged id state =>
      if some id = w.connectionId then
        let w := { w with connectionState := state }.setStatus
          (w.stateText state) (decide (state = ConnectionState.failed))
        if state = .connected then
          match w.startupSql with
          | some sql => { w with startupSql := none }.runSql sql runId
          | none => (w, none)
        else (w, none)
      else (w, none)
  | .rowsReceived run _ =>
      if w.currentRun = some run then
        let rows := w.grid.rowCount
        (w.setStatus ("Running… " ++ Nat.repr rows ++ " " ++ rowWord rows)
          false, none)
      else (w, none)
  | .schemaRefreshFailed connection message =>
      if some connection = w.connectionId then
        (w.setStatus ("Schema refresh failed: " ++ message) true, none)
      else (w, none)

end MainWindow

/-! ## Runs in flight -/

/-- A task of the main thread, by its run: one receives the rows, one waits for
the outcome. -/
inductive Job
  | rows (run : QueryRunId)
  | outcome (run : QueryRunId)
  deriving DecidableEq, Repr

/-- What the window is given: the executor of the main thread, the channel from
a sink to the task that receives the rows, and the handle of the query's task,
which holds at most one message. -/
structure Runtime (Value : Type) where
  executor : Executor Job
  rows : Mailbox (GridMsg Value)
  outcome : Mailbox QueryTaskOutcome

/-- What is documented of it. -/
structure Runtime.Documented (G : Runtime Value) : Prop where
  executor : G.executor.Fifo
  rows : G.rows.Lawful
  outcome : G.outcome.Lawful

/-- A run that the window has started: its execution by the service, the stream
that it reads, and the two channels that bring it back. -/
structure Task (Row : Type) (G : Runtime Value) where
  execution : QueryService.Execution
  service : QueryService.State Value
  stream : Option (QueryStream Row)
  /-- how the execution has ended -/
  ended : Option QueryTaskOutcome
  rows : G.rows.Box
  outcome : G.outcome.Box

structure App (Row : Type) (G : Runtime Value) where
  window : MainWindow Value
  tasks : QueryRunId → Option (Task Row G)
  /-- what the main thread is to run -/
  jobs : G.executor.Queue

/-- What a new run gets: its ids, its time and the service as it is then. -/
structure NewRun (Value : Type) where
  runId : QueryRunId
  queryId : QueryId
  startedAt : ℤ
  service : QueryService.State Value

def NewRun.execution (new : NewRun Value) (sent : String × ConnectionId) :
    QueryService.Execution where
  runId := new.runId
  queryId := new.queryId
  sql := sent.1
  connectionId := sent.2
  startedAt := new.startedAt
  collects := false

namespace App

variable {G : Runtime Value}

/-- The window after a call that may have begun a run.  Both tasks of a run are
woken once when they are made. -/
def begin (new : NewRun Value) (app : App Row G)
    (result : MainWindow Value × Option (String × ConnectionId)) :
    App Row G :=
  match result.2 with
  | none => { app with window := result.1 }
  | some sent =>
      { window := result.1
        tasks := Function.update app.tasks new.runId (some
          { execution := new.execution sent
            service := new.service
            stream := none
            ended := none
            rows := G.rows.new
            outcome := G.outcome.new })
        jobs := G.executor.wakeAll app.jobs
          [.rows new.runId, .outcome new.runId] }

/-- A step of the service on a run that has not ended, which may send a
message. -/
def advance (run : QueryRunId) (task : Task Row G)
    (action : Services.QueryService.ExecAction Value) (app : App Row G) :
    Option (App Row G) :=
  if task.ended.isSome then none
  else
    (Services.QueryService.execNext task.execution task.service action).map
      fun service =>
        let sent := G.rows.sendAll task.rows
          ((service.sink.drop task.service.sink.length).map GridMsg.ofSink)
        { app with
          tasks := Function.update app.tasks run
            (some { task with service := service, rows := sent.1 })
          jobs := G.executor.wakeAll app.jobs
            (if sent.2 then [.rows run] else []) }

/-- The execution of a run ends. -/
def conclude (run : QueryRunId) (task : Task Row G)
    (outcome : QueryTaskOutcome) (app : App Row G) : App Row G :=
  let sent := G.outcome.send task.outcome outcome
  { app with
    tasks := Function.update app.tasks run
      (some { task with ended := some outcome, outcome := sent.1 })
    jobs := G.executor.wakeAll app.jobs
      (if sent.2 then [.outcome run] else []) }

/-- Replies of the driver that come with a stream or from it. -/
def isStreamed : Services.QueryService.ExecAction Value → Bool
  | .execute (.ok _) => true
  | .nextBatch _ => true
  | _ => false

end App

inductive Label (Row Value : Type)
  /-- the user runs a text -/
  | run (sql : String) (new : NewRun Value)
  | cancelQuery
  | event (event : UiEvent) (new : NewRun Value)
  /-- another part of the window reports something -/
  | report (text : String) (isError : Bool)
  | exec (run : QueryRunId) (action : Services.QueryService.ExecAction Value)
  | cancel (run : QueryRunId) (call : ℕ)
      (action : Services.QueryService.CancelAction)
  /-- the database answers the statement of the run -/
  | answer (run : QueryRunId) (answer : Answer Row)
  /-- the run reads its stream -/
  | fetch (run : QueryRunId)
  /-- the execution of the run returns -/
  | complete (run : QueryRunId)
  /-- the execution of the run panics or is aborted -/
  | abort (run : QueryRunId) (join : JoinError)
  /-- a task may be woken for no reason -/
  | wake (run : QueryRunId)
  /-- the main thread runs the next task -/
  | poll

namespace App

variable {G : Runtime Value}

/-- The receiving task takes all messages; the other reports the outcome, when
there is one. -/
def runJob (app : App Row G) : Job → App Row G
  | .rows run =>
      match app.tasks run with
      | none => app
      | some task =>
          let received := G.rows.receive task.rows
          { app with
            window :=
              { app.window with
                grid := received.1.foldl GridMsg.apply app.window.grid }
            tasks := Function.update app.tasks run
              (some { task with rows := received.2 }) }
  | .outcome run =>
      match app.tasks run with
      | none => app
      | some task =>
          let received := G.outcome.receive task.outcome
          { app with
            window :=
              match received.1 with
              | [] => app.window
              | outcome :: _ =>
                  app.window.onQueryOutcome run outcome fun run =>
                    (task.service.completedRuns run).map (·.outcome)
            tasks := Function.update app.tasks run
              (some { task with outcome := received.2 }) }

def next (d : Decoder Row Cell Value) (app : App Row G) :
    Label Row Value → Option (App Row G)
  | .run sql new => some (app.begin new (app.window.runSql sql new.runId))
  | .cancelQuery => some { app with window := app.window.cancelQuery }
  | .event event new =>
      some (app.begin new (app.window.onUiEvent event new.runId))
  | .report text isError =>
      some { app with window := app.window.setStatus text isError }
  | .exec run action =>
      if isStreamed action then none
      else (app.tasks run).bind fun task => app.advance run task action
  | .cancel run call action =>
      (app.tasks run).bind fun task =>
        (Services.QueryService.cancelNext run task.service call action).map
          fun service =>
            { app with
              tasks := Function.update app.tasks run
                (some { task with service := service }) }
  | .answer run answer =>
      (app.tasks run).bind fun task =>
        app.advance run { task with stream := some answer.stream }
          (.execute (.ok answer.columns))
  | .fetch run =>
      (app.tasks run).bind fun task =>
        task.stream.bind fun stream =>
          let (stream, reply) := stream.nextBatch d
          app.advance run { task with stream := some stream }
            (.nextBatch (.ok reply))
  | .complete run =>
      (app.tasks run).bind fun task =>
        match task.service.phase, task.ended with
        | .finished returned, none =>
            some (app.conclude run task (.ok returned))
        | _, _ => none
  | .abort run join =>
      (app.tasks run).bind fun task =>
        match task.service.phase, task.ended with
        | .finished _, _ => none
        | _, none => some (app.conclude run task (.error join))
        | _, some _ => none
  | .wake run => some { app with jobs := G.executor.wake app.jobs (.rows run) }
  | .poll =>
      (G.executor.next app.jobs).map fun (job, jobs) =>
        { app with jobs := jobs }.runJob job

/-- A window before its first query. -/
def Starts (app : App Row G) : Prop :=
  app.window.grid = .new ∧ app.window.currentRun = none ∧
    (∀ run, app.tasks run = none) ∧ app.jobs = G.executor.idle

/-- A run gets an id that nobody has heard of. -/
def IsNew (app : App Row G) : Label Row Value → Prop
  | .run _ new | .event _ new =>
      app.tasks new.runId = none ∧ ∀ sent,
        Services.QueryService.Fresh (new.execution sent) new.service
  | _ => True

def system (G : Runtime Value) (d : Decoder Row Cell Value) :
    System (App Row G) (Label Row Value) :=
  (System.ofNext Starts (next d)).restrict IsNew

end App

end Tempr.Ui
