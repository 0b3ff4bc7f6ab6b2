import Mathlib.Logic.Basic
import Mathlib.Logic.Function.Basic

/-!
# What the services share

Identifiers, connection states, the errors of the drivers and of the services
with their texts, and the events that services publish.
-/

namespace Tempr.Services

/-- A connection, named by the text of its uuid. -/
structure ConnectionId where
  text : String
  deriving DecidableEq, Repr

/-- A query, named by the text of its uuid. -/
structure QueryId where
  text : String
  deriving DecidableEq, Repr

/-- A run of a query, named by the text of its uuid. -/
structure QueryRunId where
  text : String
  deriving DecidableEq, Repr

/-- A stored snapshot of a schema, named by the text of its uuid. -/
structure SchemaSnapshotId where
  text : String
  deriving DecidableEq, Repr

inductive DriverKind
  | postgres
  | mySQL
  | sqlite
  deriving DecidableEq, Repr

def DriverKind.engineName : DriverKind → String
  | postgres => "postgresql"
  | mySQL => "mysql"
  | sqlite => "sqlite"

inductive ConnectionState
  | connecting
  | connected
  | reconnecting
  | failed
  | disconnected
  deriving DecidableEq, Repr

def stateName : ConnectionState → String
  | .connecting => "Connecting"
  | .connected => "Connected"
  | .disconnected => "Disconnected"
  | .failed => "Failed"
  | .reconnecting => "Reconnecting"

/-! ## Errors -/

inductive DriverError
  | connectionRefused (reason : String)
  | authFailed (reason : String)
  | query (reason : String)
  | cancelled
  | timeout
  | engineNotFound (engine : String)
  | internal (reason : String)
  | unsupported (feature : String)
  deriving DecidableEq, Repr

def DriverError.toString : DriverError → String
  | connectionRefused reason => "connection refused: " ++ reason
  | authFailed reason => "authentication failed: " ++ reason
  | query reason => "query error: " ++ reason
  | cancelled => "cancelled"
  | timeout => "timeout"
  | engineNotFound engine => "engine not found: " ++ engine
  | internal reason => "internal: " ++ reason
  | unsupported feature => "unsupported by this driver: " ++ feature

/-- What a pool was waiting for when its time ran out. -/
inductive TimeoutType
  | wait
  | create
  | recycle
  deriving DecidableEq, Repr

def TimeoutType.debug : TimeoutType → String
  | wait => "Wait"
  | create => "Create"
  | recycle => "Recycle"

/-- The errors of borrowing a connection from a pool. -/
inductive PoolError
  | backend (error : DriverError)
  | timeout (kind : TimeoutType)
  | closed
  | noRuntimeSpecified
  | postCreateHook (error : String)
  deriving DecidableEq, Repr

def poolErrorReason : PoolError → String
  | .backend error => error.toString
  | .timeout kind => "pool timeout (" ++ kind.debug ++ ")"
  | .closed => "pool closed"
  | .noRuntimeSpecified => "pool has no async runtime"
  | .postCreateHook error => "pool post-create hook failed: " ++ error

inductive ServiceError
  | startupFailed (name reason : String)
  | shutdownFailed (name reason : String)
  | queryFailed (name reason : String)
  | connectionNotFound (id : String)
  | notConnected (id state : String)
  deriving DecidableEq, Repr

def ServiceError.toString : ServiceError → String
  | startupFailed name reason =>
      "service '" ++ name ++ "' failed to start: " ++ reason
  | shutdownFailed name reason =>
      "service '" ++ name ++ "' failed to stop: " ++ reason
  | queryFailed _ reason => "query failed: " ++ reason
  | connectionNotFound id => "connection '" ++ id ++ "' not found"
  | notConnected id state =>
      "connection '" ++ id ++ "' is in state " ++ state
        ++ ", expected Connected"

/-! ## Events -/

inductive QueryOutcome
  | success
  | error (message : String)
  | cancelled
  deriving DecidableEq, Repr

/-- The events published by the connection, query and schema services. -/
inductive AppEvent
  | connectionStateChanged (id : ConnectionId) (state : ConnectionState)
  | queryStarted (run : QueryRunId)
  | rowsReceived (run : QueryRunId) (count : Nat)
  | queryFinished (run : QueryRunId) (outcome : QueryOutcome)
  | schemaRefreshed (connection : ConnectionId) (snapshot : SchemaSnapshotId)
  deriving DecidableEq, Repr

/-- Whether the event tells of the run `runId`. -/
def AppEvent.isAbout (runId : QueryRunId) : AppEvent → Bool
  | queryStarted run => decide (run = runId)
  | rowsReceived run _ => decide (run = runId)
  | queryFinished run _ => decide (run = runId)
  | connectionStateChanged _ _ => false
  | schemaRefreshed _ _ => false

end Tempr.Services
