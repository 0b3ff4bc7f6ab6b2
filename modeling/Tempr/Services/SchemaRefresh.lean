import Mathlib.Data.List.Dedup
import Mathlib.Data.List.Sort
import Mathlib.Data.String.Basic
import Tempr.Support.HashMap
import Tempr.Support.Transition
import Tempr.Services.SchemaCatalog

/-!
# The schema service

The refreshes of one connection's catalog: a full introspection, and the
incremental refresh that sweeps fingerprints, re-reads the schemas of what
changed and splices the result into the cached snapshot. A refresh makes a
sequence of driver calls; between any two of them the server may change.
-/

namespace Tempr.Services

open Tempr.Support

/-! ## Snapshots -/

structure SchemaFingerprintRecord where
  kind : SchemaObjectKind
  nativeId : Nat
  version : Nat
  deriving DecidableEq, Repr

structure SchemaSnapshot (Id : Type) where
  id : SchemaSnapshotId
  connectionId : ConnectionId
  version : Nat
  objects : List (SchemaObject Id)
  keywords : List String
  fingerprints : List SchemaFingerprintRecord
  deriving DecidableEq

/-- What a fingerprint sweep says changed since the cached snapshot. -/
structure SchemaDelta where
  added : List (SchemaObjectKind × Nat)
  changed : List (SchemaObjectKind × Nat)
  dropped : List (SchemaObjectKind × Nat)
  deriving DecidableEq, Repr

def SchemaDelta.isEmpty (delta : SchemaDelta) : Bool :=
  delta.added.isEmpty && delta.changed.isEmpty && delta.dropped.isEmpty

/-- Objects touched, weighed against the full-refresh threshold. -/
def SchemaDelta.touched (delta : SchemaDelta) : Nat :=
  delta.added.length + delta.changed.length + delta.dropped.length

inductive FullRefreshReason
  | noCachedFingerprints
  | sweepUnavailable
  | unknownObject
  | tooMuchChanged
  | unresolvedSchema
  deriving DecidableEq, Repr

/-- Which path an incremental refresh took. -/
inductive RefreshPath
  | unchanged
  | incremental (schemas touched : Nat)
  | fullRefresh (reason : FullRefreshReason)
  deriving DecidableEq, Repr

namespace SchemaService

variable {Id : Type} [DecidableEq Id]

/-! ## Objects -/

section Objects

variable (ids : ObjectIds Id) (connectionId : ConnectionId)

/-- The schema and name of a relation, with its id. -/
def parentEntry : SchemaSnapshotEntry → Option ((String × String) × Id)
  | .table nativeId schema name _ =>
      some ((schema, name), ids.derived connectionId .table nativeId)
  | .view nativeId schema name _ =>
      some ((schema, name), ids.derived connectionId .view nativeId)
  | _ => none

/-- First pass: the database and the relations. -/
def relationObject : SchemaSnapshotEntry → Option (SchemaObject Id)
  | .database nativeId name =>
      some (.database (ids.derived connectionId .database nativeId) name)
  | .table nativeId schema name estimatedRows =>
      some (.table (ids.derived connectionId .table nativeId) schema name
        estimatedRows)
  | .view nativeId schema name definition =>
      some (.view (ids.derived connectionId .view nativeId) schema name
        definition)
  | _ => none

/-- Second pass: the children of the relations in scope, and the functions. -/
def childObject (parents : HashMap (String × String) Id) :
    SchemaSnapshotEntry → Option (SchemaObject Id)
  | .column nativeId parentSchema parentTable name dataType nullable ordinal
      default =>
      (parents.lookup (parentSchema, parentTable)).map fun parentId =>
        .column (ids.derived connectionId .column nativeId) parentId name
          dataType nullable ordinal default
  | .index nativeId parentSchema parentTable name columns unique indexType =>
      (parents.lookup (parentSchema, parentTable)).map fun parentTableId =>
        .index (ids.derived connectionId .index nativeId) parentTableId name
          columns unique indexType
  | .function nativeId schema name parameters returnType language =>
      some (.function (ids.derived connectionId .function nativeId) schema name
        parameters returnType language)
  | _ => none

/-- Map driver entries to domain objects. -/
def objectsFromEntries (entries : List SchemaSnapshotEntry) :
    List (SchemaObject Id) :=
  let parents := HashMap.collect (entries.filterMap (parentEntry ids connectionId))
  entries.filterMap (relationObject ids connectionId)
    ++ entries.filterMap (childObject ids connectionId parents)

/-- Every cached id a fingerprint key could be: a sweep cannot tell a table from
a view. -/
def candidateIds (key : SchemaObjectKind × Nat) : List Id :=
  ids.derived connectionId key.1 key.2 ::
    (if key.1 = .table then [ids.derived connectionId .view key.2] else [])

end Objects

def indexById (objects : List (SchemaObject Id)) :
    HashMap Id (SchemaObject Id) :=
  HashMap.collect (objects.map fun o => (o.id, o))

/-- `object_schema` after at most `fuel` parent links. -/
def objectSchemaWithin (byId : HashMap Id (SchemaObject Id)) :
    Nat → SchemaObject Id → Option String
  | _, .table _ schema _ _ => some schema
  | _, .view _ schema _ _ => some schema
  | _, .function _ schema _ _ _ _ => some schema
  | fuel + 1, .column _ parentId _ _ _ _ _ =>
      (byId.lookup parentId).bind (objectSchemaWithin byId fuel)
  | fuel + 1, .index _ parentTableId _ _ _ _ =>
      (byId.lookup parentTableId).bind (objectSchemaWithin byId fuel)
  | _, _ => none

/-- The schema a domain object lives in. The parent of a column or an index is a
relation, so one link is followed; a longer chain than there are objects would
be a cycle, on which the code does not return. -/
def objectSchema (byId : HashMap Id (SchemaObject Id)) (o : SchemaObject Id) :
    Option String :=
  objectSchemaWithin byId (byId.keys.length + 1) o

/-! ## Differences -/

/-- A sweep cannot tell a table from a view. -/
def domainKind : ObjectKind → SchemaObjectKind
  | .relation => .table
  | .column => .column
  | .index => .index
  | .function => .function

/-- The order in which a delta lists its keys. -/
def byKindThenId (a b : SchemaObjectKind × Nat) : Prop :=
  a.1.discriminant < b.1.discriminant ∨
    (a.1.discriminant = b.1.discriminant ∧ a.2 ≤ b.2)

instance : DecidableRel byKindThenId := fun _ _ => inferInstanceAs
  (Decidable (_ ∨ _))

/-- One step of the loop over the sweep: what is left of the cached versions,
and the keys added and changed so far. -/
def diffStep
    (found : HashMap (SchemaObjectKind × Nat) Nat ×
      List (SchemaObjectKind × Nat) × List (SchemaObjectKind × Nat))
    (f : SchemaFingerprint) :
    HashMap (SchemaObjectKind × Nat) Nat ×
      List (SchemaObjectKind × Nat) × List (SchemaObjectKind × Nat) :=
  let key := (domainKind f.kind, f.nativeId)
  match found.1.lookup key with
  | some version =>
      if version = f.version then (found.1.erase key, found.2)
      else (found.1.erase key, found.2.1, found.2.2 ++ [key])
  | none => (found.1, found.2.1 ++ [key], found.2.2)

/-- Pure diff of a cached fingerprint list against a fresh sweep. -/
def diffFingerprints (cached : List SchemaFingerprintRecord)
    (swept : List SchemaFingerprint) : SchemaDelta :=
  let before : HashMap (SchemaObjectKind × Nat) Nat :=
    HashMap.collect (cached.map fun f => ((f.kind, f.nativeId), f.version))
  let found := swept.foldl diffStep (before, [], [])
  { added := found.2.1.insertionSort byKindThenId
    changed := found.2.2.insertionSort byKindThenId
    dropped := found.1.keys.insertionSort byKindThenId }

/-! ## Splicing -/

/-- The schema that a changed key is cached in. -/
def changedSchema (ids : ObjectIds Id) (connectionId : ConnectionId)
    (byId : HashMap Id (SchemaObject Id)) (key : SchemaObjectKind × Nat) :
    Option String :=
  ((candidateIds ids connectionId key).findSome? fun id => byId.lookup id).bind
    (objectSchema byId)

/-- The schemas to re-read, unless some changed key resolves to none. -/
def touchedSchemas (ids : ObjectIds Id) (connectionId : ConnectionId)
    (objects : List (SchemaObject Id))
    (changed : List (SchemaObjectKind × Nat)) : Option (List String) :=
  (changed.mapM (changedSchema ids connectionId (indexById objects))).map
    fun schemas => (schemas.insertionSort (· ≤ ·)).dedup

/-- The cached objects that a splice keeps. -/
def retained (cached : List (SchemaObject Id)) (dropped : List Id)
    (touchedSchemas : List String) : List (SchemaObject Id) :=
  cached.filter fun o =>
    decide (o.id ∉ dropped) &&
      match objectSchema (indexById cached) o with
      | some schema => decide (schema ∉ touchedSchemas)
      | none => true

/-- The objects of `objects` whose ids are new, each id once. -/
def withNewIds (seen : List Id) :
    List (SchemaObject Id) → List (SchemaObject Id)
  | [] => []
  | o :: objects =>
      if o.id ∈ seen then withNewIds seen objects
      else o :: withNewIds (o.id :: seen) objects

/-- Combine the surviving cached objects with freshly introspected ones. -/
def spliceObjects (cached refreshed : List (SchemaObject Id))
    (dropped : List Id) (touchedSchemas : List String) :
    List (SchemaObject Id) :=
  let objects := retained cached dropped touchedSchemas
  objects ++ withNewIds (objects.map SchemaObject.id) refreshed

/-! ## The world -/

/-- What a service meets at each instant: the state of the server, the errors of
the connection service, of the driver and of the disk, and fresh ids. -/
structure World (Id : Type) where
  ids : ObjectIds Id
  connectionId : ConnectionId
  session : Session
  catalog : Nat → Catalog
  refusal : Nat → Option ServiceError
  fault : Nat → Option DriverError
  snapshotId : Nat → SchemaSnapshotId
  /-- whether there is a cache on disk -/
  storage : Bool
  loadFails : Nat → Bool
  saveFails : Nat → Bool
  contentHash :
    List (SchemaObject Id) × List String × List SchemaFingerprintRecord → Nat

namespace World

/-- A driver call at instant `i`. -/
def call {α : Type} (w : World Id) (i : Nat) (reply : Catalog → α) :
    Except DriverError α :=
  match w.fault i with
  | some error => .error error
  | none => .ok (reply (w.catalog i))

/-- `with_metadata_connection_fn`: driver calls on a borrowed connection. -/
def withMetadataConnection {α : Type} (w : World Id) (i : Nat)
    (f : Except DriverError α) : Except ServiceError α :=
  match w.refusal i with
  | some error => .error error
  | none =>
      match f with
      | .ok a => .ok a
      | .error error =>
          .error (.queryFailed "ConnectionService" error.toString)

def snapshotSchema (w : World Id) (i : Nat) (scope : SchemaScope) :
    Except DriverError (List SchemaSnapshotEntry) :=
  w.call i fun c => c.snapshotSchema w.session scope

def keywords (w : World Id) (i : Nat) : Except DriverError (List String) :=
  w.call i Catalog.keywords

def schemaFingerprints (w : World Id) (i : Nat) (scope : SchemaScope) :
    Except DriverError (List SchemaFingerprint) :=
  w.call i fun c => c.schemaFingerprints w.session scope

end World

/-! ## The service -/

/-- The service for one connection; `clock` counts the instants passed. -/
structure State (Id : Type) where
  snapshot : Option (SchemaSnapshot Id)
  scope : Option SchemaScope
  cache : Option (SchemaSnapshot Id)
  published : List AppEvent
  clock : Nat

namespace State

/-- Load the cached snapshot into memory, if it is of this connection. -/
def loadCached (w : World Id) (s : State Id) :
    Option (SchemaSnapshot Id) × State Id :=
  if w.storage = false || w.loadFails s.clock then (none, s)
  else
    match s.cache with
    | none => (none, s)
    | some snapshot =>
        if snapshot.connectionId ≠ w.connectionId then (none, s)
        else (some snapshot, { s with snapshot := some snapshot })

/-- The snapshot that an incremental refresh starts from: the one in memory, else
the one on disk. -/
def cachedSnapshot (w : World Id) (s : State Id) :
    Option (SchemaSnapshot Id) × State Id :=
  match s.snapshot with
  | some snapshot => (some snapshot, s)
  | none => s.loadCached w

/-- Best-effort cache write, skipped when the content that describes the
database is unchanged. -/
def saveCached (w : World Id) (snapshot : SchemaSnapshot Id) (s : State Id) :
    State Id :=
  let hash (snapshot : SchemaSnapshot Id) : Nat :=
    w.contentHash (snapshot.objects, snapshot.keywords, snapshot.fingerprints)
  let existing := if w.loadFails s.clock then none else s.cache
  if w.storage = false then s
  else if existing.any fun old => decide (hash old = hash snapshot) then s
  else if w.saveFails s.clock then s
  else { s with cache := some snapshot }

/-- The scope of the next refresh. -/
def refreshScopeFor (s : State Id) : SchemaScope :=
  match s.scope with
  | some scope => scope
  | none => if s.snapshot.isSome then .all else .searchPath

/-- `count` instants pass. -/
def wait (s : State Id) (count : Nat) : State Id :=
  { s with clock := s.clock + count }

/-- Install a snapshot, save it and publish the refresh. -/
def install (w : World Id) (s : State Id) (snapshot : SchemaSnapshot Id) :
    State Id :=
  let s := ({ s with snapshot := some snapshot }).saveCached w snapshot
  { s with
    published := s.published ++ [.schemaRefreshed w.connectionId snapshot.id] }

end State

def fingerprintRecord (f : SchemaFingerprint) : SchemaFingerprintRecord where
  kind := domainKind f.kind
  nativeId := f.nativeId
  version := f.version

/-- The three driver calls of a full introspection, at `i` and the two instants
after it. -/
def fullRead (w : World Id) (i : Nat) (scope : SchemaScope) :
    Except DriverError
      (List SchemaSnapshotEntry × List String × List SchemaFingerprint) :=
  match w.snapshotSchema i scope with
  | .error error => .error error
  | .ok entries =>
      match w.keywords (i + 1) with
      | .error error => .error error
      | .ok keywords =>
          match w.schemaFingerprints (i + 2) scope with
          | .ok fingerprints => .ok (entries, keywords, fingerprints)
          -- a driver without a sweep never refreshes incrementally
          | .error (.unsupported _) => .ok (entries, keywords, [])
          | .error error => .error error

/-- Full introspection over a scope, remembered for the connection. -/
def refreshScope (w : World Id) (scope : SchemaScope) (s : State Id) :
    Except ServiceError (SchemaSnapshot Id) × State Id :=
  match w.withMetadataConnection s.clock (fullRead w s.clock scope) with
  | .error error => (.error error, s.wait 3)
  | .ok (entries, keywords, fingerprints) =>
      let snapshot : SchemaSnapshot Id :=
        { id := w.snapshotId s.clock
          connectionId := w.connectionId
          version := (s.snapshot.map fun old => old.version + 1).getD 1
          objects := objectsFromEntries w.ids w.connectionId entries
          keywords
          fingerprints := fingerprints.map fingerprintRecord }
      let s := s.wait 3
      (.ok snapshot, { s with scope := some scope }.install w snapshot)

/-- Run a full refresh and tag the result with why. -/
def fullRefreshFallback (w : World Id) (reason : FullRefreshReason)
    (scope : SchemaScope) (s : State Id) :
    Except ServiceError (SchemaSnapshot Id × RefreshPath) × State Id :=
  match refreshScope w scope s with
  | (.ok snapshot, s) => (.ok (snapshot, .fullRefresh reason), s)
  | (.error error, s) => (.error error, s)

/-- Re-read the given schemas, one driver call each, from instant `i` on. -/
def reread (w : World Id) : Nat → List String →
    Except ServiceError (List SchemaSnapshotEntry)
  | _, [] => .ok []
  | i, schema :: schemas =>
      match w.withMetadataConnection i (w.snapshotSchema i (.schema schema)) with
      | .error error => .error error
      | .ok part =>
          match reread w (i + 1) schemas with
          | .error error => .error error
          | .ok entries => .ok (part ++ entries)

/-- What an incremental refresh decides after its sweep. -/
inductive IncrementalPlan (Id : Type)
  | unchanged (cached : SchemaSnapshot Id)
  | fullRefresh (reason : FullRefreshReason)
  | splice (cached : SchemaSnapshot Id) (swept : List SchemaFingerprint)
      (delta : SchemaDelta) (schemas : List String)
  | failed (error : ServiceError)

/-- The decision on a sweep: splice unless something speaks for reading all. -/
def planSweep (w : World Id) (cached : SchemaSnapshot Id)
    (swept : List SchemaFingerprint) : IncrementalPlan Id :=
  let delta := diffFingerprints cached.fingerprints swept
  if delta.isEmpty then .unchanged cached
  else if delta.added.isEmpty = false then .fullRefresh .unknownObject
  else if cached.fingerprints.length * 2 < delta.touched * 5 then
    .fullRefresh .tooMuchChanged
  else
    match touchedSchemas w.ids w.connectionId cached.objects delta.changed with
    | none => .fullRefresh .unresolvedSchema
    | some schemas => .splice cached swept delta schemas

/-- The first half of `refresh_incremental`: the cached snapshot, the sweep and
the decision. -/
def planIncremental (w : World Id) (s : State Id) :
    IncrementalPlan Id × State Id :=
  let (cached, s) := s.cachedSnapshot w
  match cached.filter fun snapshot => !snapshot.fingerprints.isEmpty with
  | none => (.fullRefresh .noCachedFingerprints, s)
  | some cached =>
      match w.withMetadataConnection s.clock
          (w.schemaFingerprints s.clock s.refreshScopeFor) with
      | .ok swept => (planSweep w cached swept, s.wait 1)
      | .error (.queryFailed _ _) =>
          (.fullRefresh .sweepUnavailable, s.wait 1)
      | .error (.notConnected _ _) =>
          (.fullRefresh .sweepUnavailable, s.wait 1)
      | .error error => (.failed error, s.wait 1)

/-- The snapshot that a splice makes of the cached one. -/
def splicedSnapshot (w : World Id) (i : Nat) (cached : SchemaSnapshot Id)
    (swept : List SchemaFingerprint) (delta : SchemaDelta)
    (schemas : List String) (entries : List SchemaSnapshotEntry) :
    SchemaSnapshot Id where
  id := w.snapshotId i
  connectionId := w.connectionId
  version := cached.version + 1
  objects :=
    spliceObjects cached.objects (objectsFromEntries w.ids w.connectionId entries)
      (delta.dropped.flatMap (candidateIds w.ids w.connectionId)) schemas
  keywords := cached.keywords
  fingerprints := swept.map fingerprintRecord

/-- Sweep fingerprints and re-introspect only the schemas that moved. -/
def refreshIncremental (w : World Id) (s : State Id) :
    Except ServiceError (SchemaSnapshot Id × RefreshPath) × State Id :=
  match planIncremental w s with
  | (.unchanged cached, s) => (.ok (cached, .unchanged), s)
  | (.fullRefresh reason, s) =>
      fullRefreshFallback w reason s.refreshScopeFor s
  | (.failed error, s) => (.error error, s)
  | (.splice cached swept delta schemas, s) =>
      match reread w s.clock schemas with
      | .error error => (.error error, s.wait schemas.length)
      | .ok entries =>
          let snapshot :=
            splicedSnapshot w s.clock cached swept delta schemas entries
          (.ok (snapshot, .incremental schemas.length delta.touched),
            (s.wait schemas.length).install w snapshot)

/-- Refresh in the remembered scope. -/
def refresh (w : World Id) (s : State Id) :
    Except ServiceError (SchemaSnapshot Id) × State Id :=
  refreshScope w s.refreshScopeFor s

/-- A service that has not refreshed, with nothing on disk. -/
def State.fresh : State Id where
  snapshot := none
  scope := none
  cache := none
  published := []
  clock := 0

/-! ## Runs -/

/-- The calls of the service, and a restart of the program. -/
inductive Call
  | refreshScope (scope : SchemaScope)
  | refresh
  | refreshIncremental
  | loadCached
  | restart
  deriving DecidableEq, Repr

/-- What is in memory is lost. -/
def State.restart (s : State Id) : State Id :=
  { s with snapshot := none, scope := none }

def perform (w : World Id) (s : State Id) : Call → State Id
  | .refreshScope scope => (refreshScope w scope s).2
  | .refresh => (refresh w s).2
  | .refreshIncremental => (refreshIncremental w s).2
  | .loadCached => (s.loadCached w).2
  | .restart => s.restart

/-- The runs of the service for one connection. -/
def service (w : World Id) : System (State Id) Call :=
  .ofNext (fun s => s = .fresh) fun s call => some (perform w s call)

end SchemaService

end Tempr.Services
