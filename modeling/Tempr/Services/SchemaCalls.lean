import Tempr.Services.SchemaRefresh

/-!
# Concurrent calls of the schema service

Any number of `load_cached`, `refresh` and `refresh_incremental` calls on any
connections. One step of a call is one of its lock sections, a driver or disk
operation that it awaits, or its publication; between two steps of a call the
others go on.
-/

namespace Tempr.Services.SchemaCalls

open Tempr.Support SchemaService

variable {Id : Type} [DecidableEq Id]

/-! ## Calls -/

inductive Request
  | loadCached
  | refreshScope (scope : SchemaScope)
  | refresh
  | refreshIncremental
  deriving DecidableEq, Repr

/-- What a call returns: the snapshot, if there is one, and for an incremental
refresh its path. -/
abbrev Reply (Id : Type) :=
  Except ServiceError (Option (SchemaSnapshot Id) × Option RefreshPath)

/-- What a call wants the scope of the next refresh for. -/
inductive Purpose (Id : Type)
  | refresh
  | sweep (cached : Option (SchemaSnapshot Id))

/-- What a refresh has read of the server. -/
abbrev ServerRead :=
  List SchemaSnapshotEntry × List String × List SchemaFingerprint

/-- Where a call stands: what it does next. A path is carried by a refresh that
`refresh_incremental` makes. -/
inductive Phase (Id : Type)
  /-- `load_cached`: wait for the copy on disk -/
  | loading (incremental : Bool)
  /-- `load_cached`: insert the copy in `snapshots` -/
  | inserting (copy : SchemaSnapshot Id) (incremental : Bool)
  /-- `refresh_incremental`: read `snapshots` -/
  | looking
  /-- `refresh_scope_for`: read `scopes` -/
  | scoping (purpose : Purpose Id)
  /-- `refresh_scope_for`: read whether there is a snapshot -/
  | presuming (purpose : Purpose Id)
  /-- `refresh_incremental`: wait for the fingerprints -/
  | sweeping (cached : SchemaSnapshot Id) (scope : SchemaScope)
  /-- `refresh_incremental`: wait for the next schema -/
  | rereading (cached : SchemaSnapshot Id) (swept : List SchemaFingerprint)
      (delta : SchemaDelta) (schemas left : List String)
      (entries : List SchemaSnapshotEntry)
  /-- `refresh_scope`: wait for the introspection -/
  | reading (scope : SchemaScope) (path : Option RefreshPath)
  /-- `refresh_scope`: read the version in `snapshots` -/
  | numbering (scope : SchemaScope) (read : ServerRead)
      (path : Option RefreshPath)
  /-- insert the new snapshot, which counts from `base`, in `snapshots` -/
  | installing (base : Option (SchemaSnapshot Id))
      (snapshot : SchemaSnapshot Id) (scope : Option SchemaScope)
      (path : Option RefreshPath)
  /-- `refresh_scope`: insert the scope in `scopes` -/
  | remembering (scope : SchemaScope) (snapshot : SchemaSnapshot Id)
      (path : Option RefreshPath)
  /-- `save_cached`: wait for the copy on disk -/
  | comparing (snapshot : SchemaSnapshot Id) (path : Option RefreshPath)
  /-- `save_cached`: wait for the write -/
  | saving (snapshot : SchemaSnapshot Id) (path : Option RefreshPath)
  /-- publish `SchemaRefreshed` -/
  | publishing (snapshot : SchemaSnapshot Id) (path : Option RefreshPath)
  | finished (reply : Reply Id)

structure Call (Id : Type) where
  connection : ConnectionId
  phase : Phase Id

structure State (Id : Type) where
  snapshots : ConnectionId → Option (SchemaSnapshot Id)
  scopes : ConnectionId → Option SchemaScope
  /-- the copies on disk -/
  caches : ConnectionId → Option (SchemaSnapshot Id)
  published : List AppEvent
  calls : Nat → Option (Call Id)
  clock : Nat

inductive Action
  /-- call `i` starts -/
  | start (i : Nat) (connection : ConnectionId) (request : Request)
  /-- call `i` takes its next step -/
  | advance (i : Nat)
  deriving DecidableEq, Repr

/-- What the calls of a connection meet. -/
def worldOf (worlds : ConnectionId → World Id) (connection : ConnectionId) :
    World Id :=
  { worlds connection with connectionId := connection }

namespace State

/-- Call `i` goes on with `phase`. -/
def goto (s : State Id) (i : Nat) (call : Call Id) (phase : Phase Id) :
    State Id :=
  { s with calls := Function.update s.calls i (some { call with phase }) }

/-- The lock section that inserts a snapshot. -/
def insert (s : State Id) (connection : ConnectionId)
    (snapshot : SchemaSnapshot Id) : State Id :=
  { s with
    snapshots := Function.update s.snapshots connection (some snapshot) }

end State

/-! ## Steps -/

def firstPhase : Request → Phase Id
  | .loadCached => .loading false
  | .refreshScope scope => .reading scope none
  | .refresh => .scoping .refresh
  | .refreshIncremental => .looking

/-- What follows `load_cached`. -/
def loaded (copy : Option (SchemaSnapshot Id)) (incremental : Bool) :
    Phase Id :=
  if incremental then .scoping (.sweep copy) else .finished (.ok (copy, none))

/-- The copy that `load_cached` finds: one of this connection. -/
def loadedCopy (w : World Id) (s : State Id) : Option (SchemaSnapshot Id) :=
  if w.storage = false || w.loadFails s.clock then none
  else
    (s.caches w.connectionId).filter fun copy =>
      decide (copy.connectionId = w.connectionId)

/-- What follows `refresh_scope_for`. -/
def withScope (purpose : Purpose Id) (scope : SchemaScope) : Phase Id :=
  match purpose with
  | .refresh => .reading scope none
  | .sweep cached =>
      match cached.filter fun snapshot => !snapshot.fingerprints.isEmpty with
      | some cached => .sweeping cached scope
      | none => .reading scope (some (.fullRefresh .noCachedFingerprints))

/-- What follows the sweep. -/
def swept (w : World Id) (cached : SchemaSnapshot Id) (scope : SchemaScope)
    (reply : Except ServiceError (List SchemaFingerprint)) : Phase Id :=
  match reply with
  | .ok swept =>
      match planSweep w cached swept with
      | .unchanged cached => .finished (.ok (some cached, some .unchanged))
      | .fullRefresh reason => .reading scope (some (.fullRefresh reason))
      | .splice cached swept delta schemas =>
          .rereading cached swept delta schemas schemas []
      | .failed error => .finished (.error error)
  | .error (.queryFailed _ _) =>
      .reading scope (some (.fullRefresh .sweepUnavailable))
  | .error (.notConnected _ _) =>
      .reading scope (some (.fullRefresh .sweepUnavailable))
  | .error error => .finished (.error error)

/-- The version that a snapshot counting from `base` gets. -/
def nextVersion (base : Option (SchemaSnapshot Id)) : Nat :=
  (base.map fun old => old.version + 1).getD 1

/-- The snapshot that a full introspection makes. -/
def readSnapshot (w : World Id) (i : Nat) (base : Option (SchemaSnapshot Id))
    (read : ServerRead) : SchemaSnapshot Id where
  id := w.snapshotId i
  connectionId := w.connectionId
  version := nextVersion base
  objects := objectsFromEntries w.ids w.connectionId read.1
  keywords := read.2.1
  fingerprints := read.2.2.map fingerprintRecord

/-- Whether `save_cached` finds the content of the snapshot on disk. -/
def unchangedOnDisk (w : World Id) (s : State Id)
    (snapshot : SchemaSnapshot Id) : Bool :=
  let hash (snapshot : SchemaSnapshot Id) : Nat :=
    w.contentHash (snapshot.objects, snapshot.keywords, snapshot.fingerprints)
  let existing :=
    if w.loadFails s.clock then none else s.caches w.connectionId
  existing.any fun old => decide (hash old = hash snapshot)

/-- The next step of `call`. -/
def advance (w : World Id) (s : State Id) (i : Nat) (call : Call Id) :
    Option (State Id) :=
  match call.phase with
  | .loading incremental =>
      some (s.goto i call
        (match loadedCopy w s with
          | some copy => .inserting copy incremental
          | none => loaded none incremental))
  | .inserting copy incremental =>
      some ((s.insert call.connection copy).goto i call
        (loaded (some copy) incremental))
  | .looking =>
      some (s.goto i call
        (match s.snapshots call.connection with
          | some snapshot => .scoping (.sweep (some snapshot))
          | none => .loading true))
  | .scoping purpose =>
      some (s.goto i call
        (match s.scopes call.connection with
          | some scope => withScope purpose scope
          | none => .presuming purpose))
  | .presuming purpose =>
      some (s.goto i call (withScope purpose
        (if (s.snapshots call.connection).isSome then .all else .searchPath)))
  | .sweeping cached scope =>
      some (s.goto i call (swept w cached scope
        (w.withMetadataConnection s.clock (w.schemaFingerprints s.clock scope))))
  | .rereading cached swept delta schemas (schema :: left) entries =>
      some (s.goto i call
        (match w.withMetadataConnection s.clock
            (w.snapshotSchema s.clock (.schema schema)) with
          | .ok part =>
              .rereading cached swept delta schemas left (entries ++ part)
          | .error error => .finished (.error error)))
  | .rereading cached swept delta schemas [] entries =>
      some (s.goto i call (.installing (some cached)
        (splicedSnapshot w s.clock cached swept delta schemas entries) none
        (some (.incremental schemas.length delta.touched))))
  | .reading scope path =>
      some (s.goto i call
        (match w.withMetadataConnection s.clock (fullRead w s.clock scope) with
          | .ok read => .numbering scope read path
          | .error error => .finished (.error error)))
  | .numbering scope read path =>
      let base := s.snapshots call.connection
      some (s.goto i call
        (.installing base (readSnapshot w s.clock base read) (some scope) path))
  | .installing _ snapshot scope path =>
      some ((s.insert call.connection snapshot).goto i call
        (match scope with
          | some scope => .remembering scope snapshot path
          | none => .comparing snapshot path))
  | .remembering scope snapshot path =>
      some (State.goto
        { s with
          scopes := Function.update s.scopes call.connection (some scope) }
        i call (.comparing snapshot path))
  | .comparing snapshot path =>
      some (s.goto i call
        (if w.storage = false || unchangedOnDisk w s snapshot then
          .publishing snapshot path
          else .saving snapshot path))
  | .saving snapshot path =>
      let caches :=
        if w.saveFails s.clock then s.caches
        else Function.update s.caches call.connection (some snapshot)
      some ({ s with caches }.goto i call (.publishing snapshot path))
  | .publishing snapshot path =>
      some (State.goto
        { s with
          published := s.published
            ++ [.schemaRefreshed call.connection snapshot.id] }
        i call (.finished (.ok (some snapshot, path))))
  | .finished _ => none

/-- A full read takes three driver calls, everything else at most one. -/
def State.tick (s : State Id) : State Id :=
  { s with clock := s.clock + 3 }

def next (worlds : ConnectionId → World Id) (s : State Id) :
    Action → Option (State Id)
  | .start i connection request =>
      match s.calls i with
      | none =>
          let call : Call Id := ⟨connection, firstPhase request⟩
          some (s.goto i call call.phase).tick
      | some _ => none
  | .advance i =>
      (s.calls i).bind fun call =>
        (advance (worldOf worlds call.connection) s i call).map State.tick

/-- A service that has just been made; there may be copies on disk. -/
structure Fresh (s : State Id) : Prop where
  snapshots : ∀ connection, s.snapshots connection = none
  scopes : ∀ connection, s.scopes connection = none
  published : s.published = []
  calls : ∀ i, s.calls i = none

/-- A new service with nothing on disk. -/
def State.new : State Id where
  snapshots _ := none
  scopes _ := none
  caches _ := none
  published := []
  calls _ := none
  clock := 0

omit [DecidableEq Id] in
theorem fresh_new : Fresh (State.new : State Id) :=
  ⟨fun _ => rfl, fun _ => rfl, rfl, fun _ => rfl⟩

/-- The service under any interleaving of its calls. -/
def system (worlds : ConnectionId → World Id) : System (State Id) Action :=
  .ofNext Fresh (next worlds)

end Tempr.Services.SchemaCalls
