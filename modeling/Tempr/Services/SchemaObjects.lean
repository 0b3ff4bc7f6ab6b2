import Tempr.Services.SchemaRefresh

/-!
# The objects of an introspection

What the objects built from a driver's entries say about the server: exactly the
objects of the scopes read, each described with its derived id and the derived
id of its relation. Entries of several reads may be joined as long as no two of
them give one name to different relations.
-/

namespace Tempr.Services

open Tempr.Support

/-! ## The catalog -/

namespace Catalog

variable {c : Catalog} {x y : ServerObject} {n : Nat}

theorem key_inj (hx : x ∈ c.objects) (hy : y ∈ c.objects)
    (h : x.key = y.key) : x = y :=
  List.inj_on_of_nodup_map c.keys_nodup hx hy h

theorem objectKind_of_relationName {d : Definition}
    (h : d.relationName.isSome = true) : d.objectKind = .relation := by
  cases d <;> simp_all [Definition.relationName, Definition.objectKind]

theorem relation_eq_some_iff :
    c.relation n = some y ↔
      y ∈ c.objects ∧ y.definition.relationName.isSome = true ∧
        y.nativeId = n := by
  constructor
  · intro h
    have hmem := List.mem_of_find?_eq_some h
    have hfound := List.find?_some h
    simp only [Bool.and_eq_true, decide_eq_true_eq] at hfound
    exact ⟨hmem, hfound⟩
  · rintro ⟨hmem, hname, rfl⟩
    have hsome : (c.relation y.nativeId).isSome = true := by
      rw [Catalog.relation, List.find?_isSome]
      exact ⟨y, hmem, by simp [hname]⟩
    obtain ⟨z, hz⟩ := Option.isSome_iff_exists.1 hsome
    have hzmem := List.mem_of_find?_eq_some hz
    have hzfound := List.find?_some hz
    simp only [Bool.and_eq_true, decide_eq_true_eq] at hzfound
    have hkey : z.key = y.key := by
      simp [ServerObject.key, objectKind_of_relationName hzfound.1,
        objectKind_of_relationName hname, hzfound.2]
    rw [hz, key_inj hzmem hmem hkey]

theorem exists_relation (hx : x ∈ c.objects) (hn : x.definition.parent = some n) :
    ∃ y, c.relation n = some y := by
  obtain ⟨y, hy, hname, rfl⟩ := c.parent_mem x hx n hn
  exact ⟨y, relation_eq_some_iff.2 ⟨hy, hname, rfl⟩⟩

theorem relationName_of_relation (h : c.relation n = some y) :
    c.relationName n = y.definition.relationName := by
  simp [Catalog.relationName, h]

theorem schemaOf_relation (h : y.definition.relationName.isSome = true) :
    c.schemaOf y = y.definition.relationName.map Prod.fst := by
  cases hd : y.definition <;> simp_all [Definition.relationName, schemaOf]

theorem ownerName_relation (h : y.definition.relationName.isSome = true) :
    c.ownerName y = y.definition.relationName.map Prod.snd := by
  cases hd : y.definition <;> simp_all [Definition.relationName, ownerName]

/-- A child is in the schema of its relation. -/
theorem schemaOf_child (hn : x.definition.parent = some n)
    (hy : c.relation n = some y) : c.schemaOf x = c.schemaOf y := by
  obtain ⟨-, hname, -⟩ := relation_eq_some_iff.1 hy
  rw [schemaOf_relation hname, ← relationName_of_relation hy]
  cases hd : x.definition <;> simp_all [Definition.parent, schemaOf]

theorem ownerName_child (hn : x.definition.parent = some n)
    (hy : c.relation n = some y) : c.ownerName x = c.ownerName y := by
  obtain ⟨-, hname, -⟩ := relation_eq_some_iff.1 hy
  rw [ownerName_relation hname, ← relationName_of_relation hy]
  cases hd : x.definition <;> simp_all [Definition.parent, ownerName]

/-- A child is in scope exactly when its relation is. -/
theorem inScope_child (hn : x.definition.parent = some n)
    (hy : c.relation n = some y) (session : Session) (scope : SchemaScope) :
    c.inScope session scope x = c.inScope session scope y := by
  simp [inScope, schemaOf_child hn hy, ownerName_child hn hy]

theorem schemaOf_isSome (hx : x ∈ c.objects) :
    ∃ schema, c.schemaOf x = some schema := by
  cases hn : x.definition.parent with
  | none =>
      cases hd : x.definition <;> simp_all [Definition.parent, schemaOf]
  | some n =>
      obtain ⟨y, hy⟩ := exists_relation hx hn
      obtain ⟨-, hname, -⟩ := relation_eq_some_iff.1 hy
      rw [schemaOf_child hn hy, schemaOf_relation hname]
      obtain ⟨name, hname⟩ := Option.isSome_iff_exists.1 hname
      exact ⟨name.1, by rw [hname]; rfl⟩

/-- An object is in the scope of a schema exactly when it is in the schema. -/
theorem inScope_schema_iff {session : Session} {schema : String} :
    c.inScope session (.schema schema) x = true ↔
      c.schemaOf x = some schema := by
  have hall : (c.ownerName x).all (SchemaScope.schema schema).hasRelation
      = true := by
    cases c.ownerName x <;> rfl
  rw [inScope, hall, Bool.and_true]
  cases c.schemaOf x with
  | none => simp
  | some other => simp [Session.inSchemas]

variable {Id : Type}

/-- The domain object of a server object. -/
def describe (ids : ObjectIds Id) (connectionId : ConnectionId) (c : Catalog)
    (x : ServerObject) : Option (SchemaObject Id) :=
  let id := ids.derived connectionId x.definition.kind x.nativeId
  let relationId (y : ServerObject) : Id :=
    ids.derived connectionId y.definition.kind y.nativeId
  match x.definition with
  | .table schema name estimatedRows =>
      some (.table id schema name estimatedRows)
  | .view schema name definition => some (.view id schema name definition)
  | .column relation name dataType nullable ordinal default =>
      (c.relation relation).map fun y =>
        .column id (relationId y) name dataType nullable ordinal default
  | .index relation name columns unique indexType =>
      (c.relation relation).map fun y =>
        .index id (relationId y) name columns unique indexType
  | .function schema name parameters returnType language =>
      some (.function id schema name parameters returnType language)

end Catalog

/-! ## Reads -/

namespace SchemaService

variable {Id : Type} {ids : ObjectIds Id} {connectionId : ConnectionId}
  {session : Session}

/-- The database object of every snapshot. -/
def databaseObject (ids : ObjectIds Id) (connectionId : ConnectionId)
    (session : Session) : SchemaObject Id :=
  .database (ids.derived connectionId .database session.databaseId)
    session.databaseName

/-- The entries of several reads, each of one state of the server. -/
def readEntries (session : Session) (reads : List (Catalog × SchemaScope)) :
    List SchemaSnapshotEntry :=
  reads.flatMap fun r => r.1.snapshotSchema session r.2

/-- No two of the reads give one name to different relations. -/
def Compatible (session : Session) (reads : List (Catalog × SchemaScope)) :
    Prop :=
  ∀ r ∈ reads, ∀ q ∈ reads, ∀ x ∈ r.1.objects, ∀ y ∈ q.1.objects,
    r.1.inScope session r.2 x = true → q.1.inScope session q.2 y = true →
    x.definition.relationName.isSome = true →
    x.definition.relationName = y.definition.relationName →
    x.definition.kind = y.definition.kind ∧ x.nativeId = y.nativeId

theorem compatible_single (c : Catalog) (scope : SchemaScope) :
    Compatible session [(c, scope)] := by
  intro r hr q hq x hx y hy _ _ hname hsame
  obtain rfl := List.mem_singleton.1 hr
  obtain rfl := List.mem_singleton.1 hq
  obtain rfl := c.relationName_inj x hx y hy hname hsame
  exact ⟨rfl, rfl⟩

theorem mem_readEntries {reads : List (Catalog × SchemaScope)}
    {entry : SchemaSnapshotEntry} :
    entry ∈ readEntries session reads ↔
      (reads ≠ [] ∧ entry = .database session.databaseId session.databaseName) ∨
      ∃ r ∈ reads, ∃ x ∈ r.1.objects, r.1.inScope session r.2 x = true ∧
        r.1.entry x = some entry := by
  simp only [readEntries, List.mem_flatMap, Catalog.snapshotSchema,
    List.mem_cons, List.mem_filterMap, List.mem_filter]
  constructor
  · rintro ⟨r, hr, rfl | ⟨x, ⟨hx, hscope⟩, hentry⟩⟩
    · exact .inl ⟨List.ne_nil_of_mem hr, rfl⟩
    · exact .inr ⟨r, hr, x, hx, hscope, hentry⟩
  · rintro (⟨hreads, rfl⟩ | ⟨r, hr, x, hx, hscope, hentry⟩)
    · obtain ⟨r, hr⟩ := List.exists_mem_of_ne_nil _ hreads
      exact ⟨r, hr, .inl rfl⟩
    · exact ⟨r, hr, .inr ⟨x, ⟨hx, hscope⟩, hentry⟩⟩

/-- The name and id that the entry of an object adds to the parents. -/
theorem parentEntry_entry (ids : ObjectIds Id) (connectionId : ConnectionId)
    (c : Catalog) (x : ServerObject) :
    (c.entry x).bind (parentEntry ids connectionId)
      = x.definition.relationName.map fun name =>
          (name, ids.derived connectionId x.definition.kind x.nativeId) := by
  cases hd : x.definition with
  | table => simp [Catalog.entry, hd, parentEntry, Definition.relationName,
      Definition.kind]
  | view => simp [Catalog.entry, hd, parentEntry, Definition.relationName,
      Definition.kind]
  | column relation =>
      cases hr : c.relationName relation <;>
        simp [Catalog.entry, hd, hr, parentEntry, Definition.relationName]
  | index relation =>
      cases hr : c.relationName relation <;>
        simp [Catalog.entry, hd, hr, parentEntry, Definition.relationName]
  | function => simp [Catalog.entry, hd, parentEntry, Definition.relationName]

/-- The parents found by the first pass over `entries`. -/
def parentsOf (ids : ObjectIds Id) (connectionId : ConnectionId)
    (entries : List SchemaSnapshotEntry) : HashMap (String × String) Id :=
  HashMap.collect (entries.filterMap (parentEntry ids connectionId))

/-- Every relation read is found by its name. -/
theorem lookup_parentsOf {reads : List (Catalog × SchemaScope)}
    (hcompatible : Compatible session reads) {r : Catalog × SchemaScope}
    (hr : r ∈ reads) {y : ServerObject} (hy : y ∈ r.1.objects)
    (hscope : r.1.inScope session r.2 y = true) {name : String × String}
    (hname : y.definition.relationName = some name) :
    (parentsOf ids connectionId (readEntries session reads)).lookup name
      = some (ids.derived connectionId y.definition.kind y.nativeId) := by
  apply HashMap.lookup_collect
  · rw [List.mem_filterMap]
    have hparent := parentEntry_entry ids connectionId r.1 y
    rw [hname, Option.map_some] at hparent
    obtain ⟨entry, hentry, hpair⟩ := Option.bind_eq_some_iff.1 hparent
    exact ⟨entry, mem_readEntries.2 (.inr ⟨r, hr, y, hy, hscope, hentry⟩), hpair⟩
  · intro id hid
    obtain ⟨entry, hmem, hpair⟩ := List.mem_filterMap.1 hid
    rcases mem_readEntries.1 hmem with ⟨-, rfl⟩ | ⟨q, hq, x, hx, hxscope, hentry⟩
    · cases hpair
    · have hparent := parentEntry_entry ids connectionId q.1 x
      rw [hentry, Option.bind_some, hpair] at hparent
      obtain ⟨name', hname', heq⟩ := Option.map_eq_some_iff.1 hparent.symm
      obtain ⟨rfl, rfl⟩ := Prod.mk.inj heq
      obtain ⟨hkind, hnative⟩ := hcompatible r hr q hq y hy x hx hscope hxscope
        (by rw [hname]; rfl) (hname.trans hname'.symm)
      rw [hkind, hnative]

/-- One object comes of the entry of a server object: the object it describes. -/
theorem object_of_entry {reads : List (Catalog × SchemaScope)}
    (hcompatible : Compatible session reads) {r : Catalog × SchemaScope}
    (hr : r ∈ reads) {x : ServerObject} (hx : x ∈ r.1.objects)
    (hscope : r.1.inScope session r.2 x = true) (o : SchemaObject Id) :
    (∃ entry, r.1.entry x = some entry ∧
      (relationObject ids connectionId entry = some o ∨
        childObject ids connectionId
          (parentsOf ids connectionId (readEntries session reads)) entry
            = some o)) ↔
      r.1.describe ids connectionId x = some o := by
  have hchild : ∀ n, x.definition.parent = some n →
      ∃ y name, r.1.relation n = some y ∧ r.1.relationName n = some name ∧
        (parentsOf ids connectionId (readEntries session reads)).lookup name
          = some (ids.derived connectionId y.definition.kind y.nativeId) := by
    intro n hn
    obtain ⟨y, hy⟩ := Catalog.exists_relation hx hn
    obtain ⟨hmem, hsome, -⟩ := Catalog.relation_eq_some_iff.1 hy
    obtain ⟨name, hname⟩ := Option.isSome_iff_exists.1 hsome
    refine ⟨y, name, hy, by rw [Catalog.relationName_of_relation hy, hname], ?_⟩
    refine lookup_parentsOf hcompatible hr hmem ?_ hname
    rw [← Catalog.inScope_child hn hy session r.2, hscope]
  cases hd : x.definition with
  | table =>
      simp [Catalog.entry, Catalog.describe, hd, relationObject, childObject,
        Definition.kind]
  | view =>
      simp [Catalog.entry, Catalog.describe, hd, relationObject, childObject,
        Definition.kind]
  | column relation =>
      obtain ⟨y, name, hy, hname, hlookup⟩ := hchild relation (by rw [hd]; rfl)
      simp [Catalog.entry, Catalog.describe, hd, hy, hname, relationObject,
        childObject, hlookup, Definition.kind]
  | index relation =>
      obtain ⟨y, name, hy, hname, hlookup⟩ := hchild relation (by rw [hd]; rfl)
      simp [Catalog.entry, Catalog.describe, hd, hy, hname, relationObject,
        childObject, hlookup, Definition.kind]
  | function =>
      simp [Catalog.entry, Catalog.describe, hd, relationObject, childObject,
        Definition.kind]

/-- The objects of compatible reads: the database, and a description of every
object in scope. -/
theorem mem_objectsFromEntries_iff {reads : List (Catalog × SchemaScope)}
    (hcompatible : Compatible session reads) {o : SchemaObject Id} :
    o ∈ objectsFromEntries ids connectionId (readEntries session reads) ↔
      (reads ≠ [] ∧ o = databaseObject ids connectionId session) ∨
      ∃ r ∈ reads, ∃ x ∈ r.1.objects, r.1.inScope session r.2 x = true ∧
        r.1.describe ids connectionId x = some o := by
  have hpasses : o ∈ objectsFromEntries ids connectionId
      (readEntries session reads) ↔
      ∃ entry ∈ readEntries session reads,
        relationObject ids connectionId entry = some o ∨
          childObject ids connectionId
            (parentsOf ids connectionId (readEntries session reads)) entry
              = some o := by
    simp only [objectsFromEntries, List.mem_append, List.mem_filterMap,
      parentsOf]
    constructor
    · rintro (⟨entry, hentry, ho⟩ | ⟨entry, hentry, ho⟩)
      · exact ⟨entry, hentry, .inl ho⟩
      · exact ⟨entry, hentry, .inr ho⟩
    · rintro ⟨entry, hentry, ho | ho⟩
      · exact .inl ⟨entry, hentry, ho⟩
      · exact .inr ⟨entry, hentry, ho⟩
  rw [hpasses]
  constructor
  · rintro ⟨entry, hentry, ho⟩
    rcases mem_readEntries.1 hentry with
      ⟨hreads, rfl⟩ | ⟨r, hr, x, hx, hscope, hx'⟩
    · refine .inl ⟨hreads, ?_⟩
      rcases ho with ho | ho
      · exact (Option.some.inj ho).symm
      · cases ho
    · exact .inr ⟨r, hr, x, hx, hscope,
        (object_of_entry hcompatible hr hx hscope o).1 ⟨entry, hx', ho⟩⟩
  · rintro (⟨hreads, rfl⟩ | ⟨r, hr, x, hx, hscope, ho⟩)
    · exact ⟨_, mem_readEntries.2 (.inl ⟨hreads, rfl⟩), .inl rfl⟩
    · obtain ⟨entry, hentry, ho⟩ :=
        (object_of_entry hcompatible hr hx hscope o).2 ho
      exact ⟨entry, mem_readEntries.2 (.inr ⟨r, hr, x, hx, hscope, hentry⟩), ho⟩

end SchemaService

end Tempr.Services
