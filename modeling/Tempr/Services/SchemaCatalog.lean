import Mathlib.Data.List.Basic
import Tempr.Services.Basic

/-!
# The catalog of a database and its driver

What a database server holds, and what the driver reads from it: the entries of
a scope, and one fingerprint for each of the scope's objects. The server's
objects refer to their relation by its native id; the entries that the driver
reports refer to it by schema and name.
-/

namespace Tempr.Services

/-! ## Schema objects -/

inductive SchemaObjectKind
  | table
  | view
  | column
  | index
  | function
  | database
  deriving DecidableEq, Repr

/-- The order of kinds in identities. -/
def SchemaObjectKind.discriminant : SchemaObjectKind → Nat
  | table => 0
  | view => 1
  | column => 2
  | index => 3
  | function => 4
  | database => 5

/-- The derivation of object ids, one-to-one. -/
structure ObjectIds (Id : Type) where
  derived : ConnectionId → SchemaObjectKind → Nat → Id
  derived_inj : ∀ {connection kind kind' nativeId nativeId'},
    derived connection kind nativeId = derived connection kind' nativeId' →
      kind = kind' ∧ nativeId = nativeId'

inductive SchemaObject (Id : Type)
  | table (id : Id) (schema name : String) (estimatedRows : Option Nat)
  | view (id : Id) (schema name definition : String)
  | column (id parentId : Id) (name dataType : String) (nullable : Bool)
      (ordinal : Nat) (default : Option String)
  | index (id parentTableId : Id) (name : String) (columns : List String)
      (unique : Bool) (indexType : String)
  | function (id : Id) (schema name : String)
      (parameters : List (String × String)) (returnType language : String)
  | database (id : Id) (name : String)
  deriving DecidableEq

namespace SchemaObject

variable {Id : Type}

def id : SchemaObject Id → Id
  | table id _ _ _ => id
  | view id _ _ _ => id
  | column id _ _ _ _ _ _ => id
  | index id _ _ _ _ _ => id
  | function id _ _ _ _ _ => id
  | database id _ => id

def kind : SchemaObject Id → SchemaObjectKind
  | table _ _ _ _ => .table
  | view _ _ _ _ => .view
  | column _ _ _ _ _ _ _ => .column
  | index _ _ _ _ _ _ => .index
  | function _ _ _ _ _ _ => .function
  | database _ _ => .database

end SchemaObject

/-! ## What a driver reports -/

inductive SchemaScope
  | searchPath
  | all
  | schema (name : String)
  | table (schema table : String)
  deriving DecidableEq, Repr

inductive SchemaSnapshotEntry
  | database (nativeId : Nat) (name : String)
  | table (nativeId : Nat) (schema name : String) (estimatedRows : Option Nat)
  | view (nativeId : Nat) (schema name definition : String)
  | column (nativeId : Nat) (parentSchema parentTable name dataType : String)
      (nullable : Bool) (ordinal : Nat) (default : Option String)
  | index (nativeId : Nat) (parentSchema parentTable name : String)
      (columns : List String) (unique : Bool) (indexType : String)
  | function (nativeId : Nat) (schema name : String)
      (parameters : List (String × String)) (returnType language : String)
  deriving DecidableEq

/-- What a fingerprint refers to. -/
inductive ObjectKind
  | relation
  | column
  | index
  | function
  deriving DecidableEq, Repr

structure SchemaFingerprint where
  nativeId : Nat
  kind : ObjectKind
  version : Nat
  deriving DecidableEq, Repr

/-! ## The server -/

/-- An object of the server. Columns and indexes name their relation by its
native id. -/
inductive Definition
  | table (schema name : String) (estimatedRows : Option Nat)
  | view (schema name definition : String)
  | column (relation : Nat) (name dataType : String) (nullable : Bool)
      (ordinal : Nat) (default : Option String)
  | index (relation : Nat) (name : String) (columns : List String)
      (unique : Bool) (indexType : String)
  | function (schema name : String) (parameters : List (String × String))
      (returnType language : String)
  deriving DecidableEq

namespace Definition

/-- The kind of object that a fingerprint tells. -/
def objectKind : Definition → ObjectKind
  | table _ _ _ => .relation
  | view _ _ _ => .relation
  | column _ _ _ _ _ _ => .column
  | index _ _ _ _ _ => .index
  | function _ _ _ _ _ => .function

def kind : Definition → SchemaObjectKind
  | table _ _ _ => .table
  | view _ _ _ => .view
  | column _ _ _ _ _ _ => .column
  | index _ _ _ _ _ => .index
  | function _ _ _ _ _ => .function

/-- Schema and name of a relation. -/
def relationName : Definition → Option (String × String)
  | table schema name _ => some (schema, name)
  | view schema name _ => some (schema, name)
  | _ => none

/-- The relation of a column or an index. -/
def parent : Definition → Option Nat
  | column relation _ _ _ _ _ => some relation
  | index relation _ _ _ _ => some relation
  | _ => none

end Definition

structure ServerObject where
  nativeId : Nat
  version : Nat
  definition : Definition
  deriving DecidableEq

namespace ServerObject

/-- The key of the object in a sweep: unique at every moment. -/
def key (x : ServerObject) : ObjectKind × Nat :=
  (x.definition.objectKind, x.nativeId)

def fingerprint (x : ServerObject) : SchemaFingerprint where
  nativeId := x.nativeId
  kind := x.definition.objectKind
  version := x.version

end ServerObject

/-- The objects of a database at one moment. -/
structure Catalog where
  objects : List ServerObject
  keywords : List String
  keys_nodup : (objects.map ServerObject.key).Nodup
  relationName_inj : ∀ x ∈ objects, ∀ y ∈ objects,
    x.definition.relationName.isSome = true →
    x.definition.relationName = y.definition.relationName → x = y
  parent_mem : ∀ x ∈ objects, ∀ n ∈ x.definition.parent,
    ∃ y ∈ objects, y.definition.relationName.isSome = true ∧ y.nativeId = n

/-- What stays the same while a connection is open: its database and the schemas
of its search path. -/
structure Session where
  databaseId : Nat
  databaseName : String
  searchPath : List String

/-- The schemas of a scope. -/
def Session.inSchemas (session : Session) : SchemaScope → String → Bool
  | .searchPath, schema =>
      decide (schema ∈ session.searchPath) || decide (schema = "public")
  | .all, schema =>
      decide (schema ≠ "pg_catalog") && decide (schema ≠ "information_schema")
  | .schema name, schema => decide (schema = name)
  | .table name _, schema => decide (schema = name)

/-- A scope of one table has no other relations. -/
def SchemaScope.hasRelation : SchemaScope → String → Bool
  | .table _ only, name => decide (name = only)
  | _, _ => true

namespace Catalog

/-- The relation with native id `n`. -/
def relation (c : Catalog) (n : Nat) : Option ServerObject :=
  c.objects.find? fun y =>
    y.definition.relationName.isSome && decide (y.nativeId = n)

/-- Schema and name of the relation with native id `n`. -/
def relationName (c : Catalog) (n : Nat) : Option (String × String) :=
  (c.relation n).bind fun y => y.definition.relationName

/-- The schema that an object is in. -/
def schemaOf (c : Catalog) (x : ServerObject) : Option String :=
  match x.definition with
  | .table schema _ _ => some schema
  | .view schema _ _ => some schema
  | .column relation _ _ _ _ _ => (c.relationName relation).map Prod.fst
  | .index relation _ _ _ _ => (c.relationName relation).map Prod.fst
  | .function schema _ _ _ _ => some schema

/-- The relation that an object is or belongs to; a function has none. -/
def ownerName (c : Catalog) (x : ServerObject) : Option String :=
  match x.definition with
  | .table _ name _ => some name
  | .view _ name _ => some name
  | .column relation _ _ _ _ _ => (c.relationName relation).map Prod.snd
  | .index relation _ _ _ _ => (c.relationName relation).map Prod.snd
  | .function _ _ _ _ _ => none

/-- `scope_clause`, and `function_scope_clause` for functions. -/
def inScope (c : Catalog) (session : Session) (scope : SchemaScope)
    (x : ServerObject) : Bool :=
  (c.schemaOf x).any (session.inSchemas scope) &&
    (c.ownerName x).all scope.hasRelation

/-- The entry of an object in a snapshot. -/
def entry (c : Catalog) (x : ServerObject) : Option SchemaSnapshotEntry :=
  match x.definition with
  | .table schema name estimatedRows =>
      some (.table x.nativeId schema name estimatedRows)
  | .view schema name definition =>
      some (.view x.nativeId schema name definition)
  | .column relation name dataType nullable ordinal default =>
      (c.relationName relation).map fun parent =>
        .column x.nativeId parent.1 parent.2 name dataType nullable ordinal
          default
  | .index relation name columns unique indexType =>
      (c.relationName relation).map fun parent =>
        .index x.nativeId parent.1 parent.2 name columns unique indexType
  | .function schema name parameters returnType language =>
      some (.function x.nativeId schema name parameters returnType language)

/-- `snapshot_schema`: the database and the objects of the scope. -/
def snapshotSchema (c : Catalog) (session : Session) (scope : SchemaScope) :
    List SchemaSnapshotEntry :=
  .database session.databaseId session.databaseName ::
    (c.objects.filter (c.inScope session scope)).filterMap c.entry

/-- `schema_fingerprints`: the keys and versions of the objects of the scope. -/
def schemaFingerprints (c : Catalog) (session : Session)
    (scope : SchemaScope) : List SchemaFingerprint :=
  (c.objects.filter (c.inScope session scope)).map ServerObject.fingerprint

end Catalog

end Tempr.Services
