import Tempr.Intel.Catalog
import Tempr.Services.SchemaCalls

/-!
# The catalog of the engine

`IntelligenceService` stands between the event bus, the schema service and the
engine, which holds one catalog. A `SchemaRefreshed` event is handled in the
thread that publishes it; a `ConnectionStateChanged` event sets the active
connection and spawns a task. One step is a lock section of a handler or of a
task, or a step of a call of the schema service; between two steps of one of
them the others go on.
-/

namespace Tempr.Services.CatalogLifecycle

open Tempr.Support Tempr.Intel SchemaService

variable {Id : Type}

/-! ## Tasks and handlers -/

/-- What a spawned task runs. -/
inductive TaskKind
  | onConnected
  | onUnreachable
  deriving DecidableEq, Repr

/-- Where a task stands: what it does next. -/
inductive TaskPhase (Id : Type)
  /-- call `load_cached` -/
  | starting
  /-- wait for `load_cached` -/
  | loading (call : Nat)
  | installingCopy (copy : SchemaSnapshot Id)
  /-- call `refresh_incremental` -/
  | beginning
  /-- wait for `refresh_incremental` -/
  | refreshing (call : Nat)
  | installing (snapshot : SchemaSnapshot Id)
  | finished

structure Task (Id : Type) where
  connection : ConnectionId
  kind : TaskKind
  phase : TaskPhase Id

/-- The handler of a `SchemaRefreshed` event. -/
inductive Handler (Id : Type)
  /-- read the snapshot that the schema service holds -/
  | reading (connection : ConnectionId) (snapshot : SchemaSnapshotId)
  | installing (loaded : SchemaSnapshot Id)

structure State (Id : Type) where
  schema : SchemaCalls.State Id
  activeConnection : Option ConnectionId
  installedSnapshot : Option SchemaSnapshotId
  /-- the catalog of the engine -/
  catalog : CatalogCache Id
  tasks : List (Task Id)
  /-- the handlers that run, by the call that published their event -/
  handlers : Nat → Option (Handler Id)
  /-- the `SchemaRefreshFailed` events -/
  failures : List (ConnectionId × String)

inductive Action
  /-- a `ConnectionStateChanged` event; there may be no runtime to spawn on -/
  | stateChanged (id : ConnectionId) (state : ConnectionState) (runtime : Bool)
  /-- a step of the schema service, or a call of another caller -/
  | schema (action : SchemaCalls.Action)
  /-- the handler of call `i` takes its next step -/
  | handle (i : Nat)
  /-- task `t` takes its next step; a call that it starts is call `call` -/
  | task (t call : Nat)
  deriving DecidableEq, Repr

/-- The task that a state change spawns. -/
def spawns : ConnectionState → Option TaskKind
  | .connected => some .onConnected
  | .failed => some .onUnreachable
  | .disconnected => some .onUnreachable
  | .connecting => none
  | .reconnecting => none

/-- What follows the installation of a copy from disk, or its absence. -/
def TaskKind.afterLoad : TaskKind → TaskPhase Id
  | onConnected => .beginning
  | onUnreachable => .finished

/-- What a task does with the reply that it has waited for. -/
def Task.resume (task : Task Id) (reply : SchemaCalls.Reply Id) :
    TaskPhase Id :=
  match task.phase, reply with
  | .loading _, .ok (some copy, _) => .installingCopy copy
  | .loading _, _ => task.kind.afterLoad
  | .refreshing _, .ok (some snapshot, _) => .installing snapshot
  -- `refresh_incremental` has failed; it never succeeds without a snapshot
  | _, _ => .finished

/-- The handler that a step of `call` starts. -/
def handlerOf (call : SchemaCalls.Call Id) : Option (Handler Id) :=
  match call.phase with
  | .publishing snapshot _ => some (.reading call.connection snapshot.id)
  | _ => none

namespace State

/-- Task `t` goes on with `phase`. -/
def goto (s : State Id) (t : Nat) (task : Task Id) (phase : TaskPhase Id) :
    State Id :=
  { s with tasks := s.tasks.set t { task with phase } }

/-- What a call returns, once it and the handler of its event are done. -/
def reply (s : State Id) (call : Nat) : Option (SchemaCalls.Reply Id) :=
  match s.schema.calls call, s.handlers call with
  | some ⟨_, .finished reply⟩, none => some reply
  | _, _ => none

/-- Whether a snapshot is the one that is installed. -/
def has (s : State Id) (snapshot : SchemaSnapshot Id) : Bool :=
  decide (s.installedSnapshot = some snapshot.id)

end State

/-! ## Steps -/

def onStateChanged (s : State Id) (id : ConnectionId) (state : ConnectionState)
    (runtime : Bool) : State Id :=
  match spawns state with
  | some kind =>
      { s with
        activeConnection := some id
        tasks := if runtime then s.tasks ++ [⟨id, kind, .starting⟩] else s.tasks }
  | none => s

variable [Unicode] [DecidableEq Id]

/-- `install_snapshot`, which also replaces the catalog of the engine. -/
def State.installSnapshot (s : State Id) (snapshot : SchemaSnapshot Id) :
    State Id :=
  if s.has snapshot then s
  else
    { s with
      catalog := .fromSnapshot snapshot
      installedSnapshot := some snapshot.id }

omit [Unicode] in
/-- A step of the schema service. The publication of a snapshot starts the
handler of its event. -/
def schemaStep (worlds : ConnectionId → World Id) (s : State Id)
    (a : SchemaCalls.Action) : Option (State Id) :=
  (SchemaCalls.next worlds s.schema a).map fun schema =>
    { s with
      schema
      handlers :=
        match a with
        | .advance i =>
            match (s.schema.calls i).bind handlerOf with
            | some handler => Function.update s.handlers i (some handler)
            | none => s.handlers
        | .start _ _ _ => s.handlers }

/-- The next step of the handler of call `i`. -/
def handleStep (s : State Id) (i : Nat) : Option (State Id) :=
  match s.handlers i with
  | none => none
  | some (.reading connection snapshot) =>
      let loaded := (s.schema.snapshots connection).filter fun loaded =>
        decide (loaded.id = snapshot)
      some { s with
        handlers := Function.update s.handlers i (loaded.map .installing) }
  | some (.installing loaded) =>
      let s := s.installSnapshot loaded
      some { s with handlers := Function.update s.handlers i none }

/-- The next step of task `t`. -/
def taskStep (worlds : ConnectionId → World Id) (s : State Id) (t : Nat)
    (task : Task Id) (call : Nat) : Option (State Id) :=
  match task.phase with
  | .starting =>
      (schemaStep worlds s (.start call task.connection .loadCached)).map
        fun s => s.goto t task (.loading call)
  | .loading i =>
      (s.reply i).map fun reply => s.goto t task (task.resume reply)
  | .installingCopy copy =>
      some ((s.installSnapshot copy).goto t task task.kind.afterLoad)
  | .beginning =>
      (schemaStep worlds s (.start call task.connection .refreshIncremental)).map
        fun s => s.goto t task (.refreshing call)
  | .refreshing i =>
      (s.reply i).map fun reply =>
        let failures :=
          match reply with
          | .error error => s.failures ++ [(task.connection, error.toString)]
          | .ok _ => s.failures
        { s with failures }.goto t task (task.resume reply)
  | .installing snapshot =>
      some ((s.installSnapshot snapshot).goto t task .finished)
  | .finished => none

def next (worlds : ConnectionId → World Id) (s : State Id) :
    Action → Option (State Id)
  | .stateChanged id state runtime => some (onStateChanged s id state runtime)
  | .schema a => schemaStep worlds s a
  | .handle i => handleStep s i
  | .task t call =>
      s.tasks[t]?.bind fun task => taskStep worlds s t task call

/-- The snapshot of the catalog that the engine starts with. -/
def emptySnapshot (id : SchemaSnapshotId) (connectionId : ConnectionId) :
    SchemaSnapshot Id where
  id
  connectionId
  version := 0
  objects := []
  keywords := []
  fingerprints := []

/-- The ids of snapshots are uuids: no two snapshots that are made have the same
id, and neither do the copies on disk that were made before. -/
structure DistinctIds (worlds : ConnectionId → World Id)
    (caches : ConnectionId → Option (SchemaSnapshot Id)) : Prop where
  made : ∀ c c' i j, (worlds c).snapshotId i = (worlds c').snapshotId j →
    c = c' ∧ i = j
  stored : ∀ c c' copy copy', caches c = some copy → caches c' = some copy' →
    copy.id = copy'.id → copy = copy'
  apart : ∀ c copy c' i, caches c = some copy →
    (worlds c').snapshotId i ≠ copy.id

/-- A service that has just been made; there may be copies on disk. -/
structure Fresh (worlds : ConnectionId → World Id) (s : State Id) : Prop where
  schema : SchemaCalls.Fresh s.schema
  distinct : DistinctIds worlds s.schema.caches
  activeConnection : s.activeConnection = none
  installedSnapshot : s.installedSnapshot = none
  catalog : ∃ id connectionId,
    s.catalog = .fromSnapshot (emptySnapshot id connectionId)
  tasks : s.tasks = []
  handlers : ∀ i, s.handlers i = none

/-- The service under any order of events and any interleaving of its tasks and
handlers and of the calls of the schema service. -/
def system (worlds : ConnectionId → World Id) : System (State Id) Action :=
  .ofNext (Fresh worlds) (next worlds)

/-- No task, no handler and no call of the schema service is under way. -/
structure State.Quiet (s : State Id) : Prop where
  tasks : ∀ task ∈ s.tasks, task.phase = .finished
  handlers : ∀ i, s.handlers i = none
  calls : ∀ i call, s.schema.calls i = some call →
    ∃ reply, call.phase = .finished reply

end Tempr.Services.CatalogLifecycle
