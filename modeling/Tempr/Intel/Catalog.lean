import Mathlib.Data.List.Sort
import Tempr.Intel.Text
import Tempr.Services.SchemaRefresh

/-!
# The catalog cache

The catalog in the shape that name resolution reads: an arena of entries with
the relations first, then the functions, then the columns of each relation in
their order, then the indexes, and maps into the arena. It is built from a
snapshot of the schema and never changes.
-/

namespace Tempr.Intel

open Tempr.Support Tempr.Services

/-- One object of the catalog. Columns and indexes name their relation by its
place in the arena. -/
inductive CatalogEntry (Id : Type)
  | table (id : Id) (schema name : Text) (estimatedRows : Option ℕ)
  | view (id : Id) (schema name definition : Text)
  | column (id : Id) (parent : ℕ) (name dataType : Text) (nullable : Bool)
      (ordinal : ℕ) (default : Option Text)
  | index (id : Id) (parent : ℕ) (name : Text) (columns : List Text)
      (unique : Bool) (indexType : Text)
  | function (id : Id) (schema name : Text) (parameters : List (Text × Text))
      (returnType language : Text)
  deriving DecidableEq

variable {Id : Type}

namespace CatalogEntry

def id : CatalogEntry Id → Id
  | table id _ _ _ => id
  | view id _ _ _ => id
  | column id _ _ _ _ _ _ => id
  | index id _ _ _ _ _ => id
  | function id _ _ _ _ _ => id

def name : CatalogEntry Id → Text
  | table _ _ name _ => name
  | view _ _ name _ => name
  | column _ _ name _ _ _ _ => name
  | index _ _ name _ _ _ => name
  | function _ _ name _ _ _ => name

/-- The schema the object lives in; columns and indexes hang off their
relation. -/
def schema : CatalogEntry Id → Option Text
  | table _ schema _ _ => some schema
  | view _ schema _ _ => some schema
  | function _ schema _ _ _ _ => some schema
  | column _ _ _ _ _ _ _ => none
  | index _ _ _ _ _ _ => none

def isColumn : CatalogEntry Id → Bool
  | column _ _ _ _ _ _ _ => true
  | _ => false

end CatalogEntry

/-- The catalog of one connection. Places in the arena are numbers. -/
structure CatalogCache (Id : Type) where
  snapshotId : SchemaSnapshotId
  connectionId : ConnectionId
  snapshotVersion : ℕ
  objects : List (CatalogEntry Id)
  /-- the place of an object -/
  placeOf : HashMap Id ℕ
  /-- how many relations the arena begins with -/
  nRelations : ℕ
  relationsByName : HashMap (Text × Text) ℕ
  /-- the relations of a folded name, more than one if it is ambiguous -/
  relationsByFoldedName : HashMap (Text × Text) (List ℕ)
  /-- the places of a relation's columns, from a first to before a last -/
  columnRanges : List (ℕ × ℕ)
  /-- the folded names of relations and functions, sorted -/
  nameOrder : List (Text × ℕ)
  schemas : List Text
  keywords : List Text

variable [DecidableEq Id]

namespace CatalogCache

/-! ## Lookups -/

def isEmpty (catalog : CatalogCache Id) : Bool :=
  catalog.objects.isEmpty

def object (catalog : CatalogCache Id) (index : ℕ) :
    Option (CatalogEntry Id) :=
  catalog.objects[index]?

def byId (catalog : CatalogCache Id) (id : Id) : Option ℕ :=
  catalog.placeOf.lookup id

/-- A quoted relation. -/
def relationExact (catalog : CatalogCache Id) (schema name : Text) :
    Option ℕ :=
  catalog.relationsByName.lookup (schema, name)

/-- The relations of a name without quotes. -/
def relationFolded [Unicode] (catalog : CatalogCache Id)
    (schema name : Text) : List ℕ :=
  (catalog.relationsByFoldedName.lookup
    (toLowercase schema, toLowercase name)).getD []

/-- The columns of a relation, in their order. -/
def columnsOf (catalog : CatalogCache Id) (relation : ℕ) :
    List (CatalogEntry Id) :=
  match catalog.columnRanges[relation]? with
  | some (start, stop) => (catalog.objects.take stop).drop start
  | none => []

/-! ## Building -/

/-- The entry of a table or view. -/
def relationEntry : SchemaObject Id → Option (CatalogEntry Id)
  | .table id schema name rows => some (.table id schema.toList name.toList rows)
  | .view id schema name definition =>
      some (.view id schema.toList name.toList definition.toList)
  | _ => none

def functionEntry : SchemaObject Id → Option (CatalogEntry Id)
  | .function id schema name parameters returnType language =>
      some (.function id schema.toList name.toList
        (parameters.map fun p => (p.1.toList, p.2.toList)) returnType.toList
        language.toList)
  | _ => none

/-- The relations of the snapshot by their ids; of two with one id, the later. -/
def parentPlaces (relations : List (CatalogEntry Id)) : HashMap Id ℕ :=
  HashMap.collect (relations.zipIdx.map fun p => (p.1.id, p.2))

/-- The entry of a column of the relation at `relation`, with its place in the
relation. A column without its relation is dropped. -/
def columnEntry (parents : HashMap Id ℕ) (relation : ℕ) :
    SchemaObject Id → Option (ℕ × CatalogEntry Id)
  | .column id parentId name dataType nullable ordinal default =>
      if parents.lookup parentId = some relation then
        some (ordinal, .column id relation name.toList dataType.toList nullable
          ordinal (default.map String.toList))
      else none
  | _ => none

def indexEntry (parents : HashMap Id ℕ) (relation : ℕ) :
    SchemaObject Id → Option (CatalogEntry Id)
  | .index id parentId name columns unique indexType =>
      if parents.lookup parentId = some relation then
        some (.index id relation name.toList (columns.map String.toList) unique
          indexType.toList)
      else none
  | _ => none

/-- The columns of one relation, sorted by their ordinals. -/
def columnBucket (parents : HashMap Id ℕ) (objects : List (SchemaObject Id))
    (relation : ℕ) : List (CatalogEntry Id) :=
  ((objects.filterMap (columnEntry parents relation)).insertionSort
    fun a b => a.1 ≤ b.1).map Prod.snd

def indexBucket (parents : HashMap Id ℕ) (objects : List (SchemaObject Id))
    (relation : ℕ) : List (CatalogEntry Id) :=
  objects.filterMap (indexEntry parents relation)

/-- Where the parts of a list of lists lie in what follows `start` entries. -/
def rangesFrom (start : ℕ) : List (List (CatalogEntry Id)) → List (ℕ × ℕ)
  | [] => []
  | part :: parts =>
      (start, start + part.length) :: rangesFrom (start + part.length) parts

/-- The map of folded names; the relations of one name in their order. -/
def collectFolded [Unicode] (relations : List (CatalogEntry Id)) :
    HashMap (Text × Text) (List ℕ) :=
  relations.zipIdx.foldl
    (fun m p =>
      let key := (toLowercase (p.1.schema.getD []), toLowercase p.1.name)
      m.insert key ((m.lookup key).getD [] ++ [p.2]))
    ∅

/-- Sorted, and without repetitions. -/
def sortedDistinct (l : List Text) : List Text :=
  (l.insertionSort (· ≤ ·)).destutter (· ≠ ·)

def fromSnapshot [Unicode] (snapshot : SchemaSnapshot Id) : CatalogCache Id :=
  let relations := snapshot.objects.filterMap relationEntry
  let functions := snapshot.objects.filterMap functionEntry
  let parents := parentPlaces relations
  let columns := (List.range relations.length).map
    (columnBucket parents snapshot.objects)
  let indexes := (List.range relations.length).map
    (indexBucket parents snapshot.objects)
  let objects :=
    relations ++ functions ++ columns.flatten ++ indexes.flatten
  { snapshotId := snapshot.id
    connectionId := snapshot.connectionId
    snapshotVersion := snapshot.version
    objects
    placeOf := HashMap.collect (objects.zipIdx.map fun p => (p.1.id, p.2))
    nRelations := relations.length
    relationsByName := HashMap.collect
      (relations.zipIdx.map fun p => ((p.1.schema.getD [], p.1.name), p.2))
    relationsByFoldedName := collectFolded relations
    columnRanges :=
      rangesFrom (relations.length + functions.length) columns
    nameOrder :=
      ((relations ++ functions).zipIdx.map fun p =>
        (toLowercase p.1.name, p.2)).insertionSort
        fun a b => a.1 < b.1 ∨ a.1 = b.1 ∧ a.2 ≤ b.2
    schemas := sortedDistinct (objects.filterMap CatalogEntry.schema)
    keywords := snapshot.keywords.map String.toList }

end CatalogCache

end Tempr.Intel
