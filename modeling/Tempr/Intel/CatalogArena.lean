import Tempr.Intel.Catalog
import Tempr.Services.SchemaSplice
import Tempr.Support.Buckets

/-!
# The arena of the catalog

What the catalog says of the snapshot it was built from.  A snapshot shows its
relations and functions, and those columns and indexes whose relation it has;
the arena has one place for each of them and for nothing else, and the maps of
the catalog lead to these places.
-/

namespace Tempr.Services.SchemaObject

variable {Id : Type}

def isRelation : SchemaObject Id → Bool
  | table _ _ _ _ => true
  | view _ _ _ _ => true
  | _ => false

end Tempr.Services.SchemaObject

namespace Tempr.Intel

open Tempr.Support Tempr.Services

variable {Id : Type}

namespace CatalogEntry

def isRelation : CatalogEntry Id → Bool
  | table _ _ _ _ => true
  | view _ _ _ _ => true
  | _ => false

/-- The place of the relation of a column or an index. -/
def parent : CatalogEntry Id → Option ℕ
  | column _ parent _ _ _ _ _ => some parent
  | index _ parent _ _ _ _ => some parent
  | _ => none

/-- The place of a column in its relation. -/
def ordinal : CatalogEntry Id → ℕ
  | column _ _ _ _ _ ordinal _ => ordinal
  | _ => 0

/-- What the arena holds for an object, if its relation is at `parent`.  A
database has no place in the arena. -/
def ofObject (parent : ℕ) : SchemaObject Id → Option (CatalogEntry Id)
  | .table id schema name rows => some (.table id schema.toList name.toList rows)
  | .view id schema name definition =>
      some (.view id schema.toList name.toList definition.toList)
  | .column id _ name dataType nullable ordinal default =>
      some (.column id parent name.toList dataType.toList nullable ordinal
        (default.map String.toList))
  | .index id _ name columns unique indexType =>
      some (.index id parent name.toList (columns.map String.toList) unique
        indexType.toList)
  | .function id schema name parameters returnType language =>
      some (.function id schema.toList name.toList
        (parameters.map fun p => (p.1.toList, p.2.toList)) returnType.toList
        language.toList)
  | .database _ _ => none

theorem ofObject_id {parent : ℕ} {o : SchemaObject Id} {e : CatalogEntry Id}
    (h : ofObject parent o = some e) : e.id = o.id := by
  cases o <;> cases h <;> rfl

theorem ofObject_isRelation {parent : ℕ} {o : SchemaObject Id}
    {e : CatalogEntry Id} (h : ofObject parent o = some e) :
    e.isRelation = o.isRelation := by
  cases o <;> cases h <;> rfl

theorem ofObject_parent {parent : ℕ} {o : SchemaObject Id}
    {e : CatalogEntry Id} (h : ofObject parent o = some e) :
    e.parent = o.parentId.map fun _ => parent := by
  cases o <;> cases h <;> rfl

end CatalogEntry

namespace CatalogCache

/-! ## The specification -/

/-- The objects of a snapshot that belong into the arena. -/
def Shows (snapshot : SchemaSnapshot Id) (o : SchemaObject Id) : Prop :=
  o ∈ snapshot.objects ∧ o.kind ≠ .database ∧
    ∀ id, o.parentId = some id →
      ∃ r ∈ snapshot.objects, r.isRelation ∧ r.id = id

/-- The columns of the relation `id`, which is at `place`, in the order of the
snapshot. -/
def columnsIn [DecidableEq Id] (snapshot : SchemaSnapshot Id) (id : Id)
    (place : ℕ) : List (CatalogEntry Id) :=
  snapshot.objects.filterMap fun o =>
    if o.kind = .column ∧ o.parentId = some id then
      CatalogEntry.ofObject place o
    else none

/-- The catalog shows what the snapshot has. -/
structure Represents [DecidableEq Id] [Unicode] (catalog : CatalogCache Id)
    (snapshot : SchemaSnapshot Id) : Prop where
  /-- A shown object has exactly one place, which its id leads to. -/
  place : ∀ o, Shows snapshot o → ∃ i, catalog.byId o.id = some i ∧
    (∃ parent, catalog.object i = CatalogEntry.ofObject parent o) ∧
    ∀ j e, catalog.object j = some e → (e.id = o.id ↔ j = i)
  /-- Nothing else has a place. -/
  shown : ∀ i e, catalog.object i = some e →
    ∃ o, Shows snapshot o ∧ o.id = e.id
  found : ∀ id i, catalog.byId id = some i →
    ∃ e, catalog.object i = some e ∧ e.id = id
  /-- A stored parent is the relation of the object. -/
  parent : ∀ i e p, catalog.object i = some e → e.parent = some p →
    ∃ o ∈ snapshot.objects, o.id = e.id ∧
      ∃ r, catalog.object p = some r ∧ r.isRelation ∧ o.parentId = some r.id
  /-- The columns of a relation are all of its columns, ordered. -/
  columns : ∀ i e, catalog.object i = some e → e.isRelation →
    (catalog.columnsOf i).Perm (columnsIn snapshot e.id i) ∧
      (catalog.columnsOf i).Pairwise (·.ordinal ≤ ·.ordinal)
  noColumns : ∀ i, (∀ e, catalog.object i = some e → ¬e.isRelation) →
    catalog.columnsOf i = []
  /-- The relations of a folded name, in the order of the arena. -/
  folded : ∀ schema name i, i ∈ catalog.relationFolded schema name ↔
    ∃ e, catalog.object i = some e ∧ e.isRelation ∧
      toLowercase (e.schema.getD []) = toLowercase schema ∧
      toLowercase e.name = toLowercase name
  foldedOrder : ∀ schema name,
    (catalog.relationFolded schema name).Pairwise (· < ·)
  foldedHit : ∀ schema name i, catalog.relationExact schema name = some i →
    i ∈ catalog.relationFolded schema name

/-! ## What each pass of the building gives -/

theorem relationEntry_eq (o : SchemaObject Id) (parent : ℕ) :
    relationEntry o =
      if o.isRelation then CatalogEntry.ofObject parent o else none := by
  cases o <;> rfl

section Building

variable [DecidableEq Id] (parents : HashMap Id ℕ) (objects : List (SchemaObject Id))

/-- The place of the relation of an object. -/
def parentPlace (o : SchemaObject Id) : Option ℕ :=
  o.parentId.bind parents.lookup

theorem columnEntry_eq (relation : ℕ) (o : SchemaObject Id) :
    (columnEntry parents relation o).map Prod.snd =
      if o.kind = .column ∧ parentPlace parents o = some relation then
        CatalogEntry.ofObject relation o
      else none := by
  cases o with
  | column id parentId name dataType nullable ordinal default =>
      by_cases h : parents.lookup parentId = some relation
      · simp [columnEntry, parentPlace, SchemaObject.parentId,
          SchemaObject.kind, CatalogEntry.ofObject, h]
      · simp [columnEntry, parentPlace, SchemaObject.parentId, h]
  | _ => rfl

theorem indexEntry_eq (relation : ℕ) (o : SchemaObject Id) :
    indexEntry parents relation o =
      if o.kind = .index ∧ parentPlace parents o = some relation then
        CatalogEntry.ofObject relation o
      else none := by
  cases o with
  | index id parentId name columns unique indexType =>
      by_cases h : parents.lookup parentId = some relation
      · simp [indexEntry, parentPlace, SchemaObject.parentId,
          SchemaObject.kind, CatalogEntry.ofObject, h]
      · simp [indexEntry, parentPlace, SchemaObject.parentId, h]
  | _ => rfl

theorem columnBucket_perm (relation : ℕ) :
    (columnBucket parents objects relation).Perm
      (objects.filterMap fun o =>
        if o.kind = .column ∧ parentPlace parents o = some relation then
          CatalogEntry.ofObject relation o
        else none) := by
  rw [columnBucket]
  refine ((List.perm_insertionSort _ _).map Prod.snd).trans (List.Perm.of_eq ?_)
  rw [List.map_filterMap]
  apply List.filterMap_congr
  intro o _
  exact columnEntry_eq parents relation o

theorem columnBucket_pairwise (relation : ℕ) :
    (columnBucket parents objects relation).Pairwise
      (·.ordinal ≤ ·.ordinal) := by
  have : Std.Total fun a b : ℕ × CatalogEntry Id => a.1 ≤ b.1 :=
    ⟨fun a b => Nat.le_total a.1 b.1⟩
  have : IsTrans (ℕ × CatalogEntry Id) fun a b => a.1 ≤ b.1 :=
    ⟨fun _ _ _ => Nat.le_trans⟩
  have hordinal : ∀ p ∈ objects.filterMap (columnEntry parents relation),
      p.2.ordinal = p.1 := by
    intro p hp
    obtain ⟨o, -, ho⟩ := List.mem_filterMap.1 hp
    cases o <;> simp only [columnEntry, Option.ite_none_right_eq_some,
      Option.some.injEq, reduceCtorEq] at ho
    obtain ⟨-, rfl⟩ := ho
    rfl
  rw [columnBucket, List.pairwise_map]
  refine (List.pairwise_insertionSort _ _).imp_of_mem ?_
  intro a b ha hb hle
  rw [List.mem_insertionSort] at ha hb
  rwa [hordinal a ha, hordinal b hb]

/-- What the arena holds for an object of the snapshot, if anything. -/
def arenaEntry (o : SchemaObject Id) : Option (CatalogEntry Id) :=
  if o.parentId = none then CatalogEntry.ofObject 0 o
  else (parentPlace parents o).bind (CatalogEntry.ofObject · o)

variable {parents}

theorem ofObject_of_arenaEntry {o : SchemaObject Id} {e : CatalogEntry Id}
    (h : arenaEntry parents o = some e) :
    ∃ parent, CatalogEntry.ofObject parent o = some e ∧
      ∀ id, o.parentId = some id → parents.lookup id = some parent := by
  rw [arenaEntry] at h
  split at h
  · rename_i hnone
    exact ⟨0, h, fun id hid => by rw [hnone] at hid; cases hid⟩
  · obtain ⟨parent, hplace, hentry⟩ := Option.bind_eq_some_iff.1 h
    obtain ⟨id, hid, hlookup⟩ := Option.bind_eq_some_iff.1 hplace
    refine ⟨parent, hentry, fun id' hid' => ?_⟩
    rw [hid] at hid'
    rwa [← Option.some.inj hid']

/-- The objects of kind `kind` that hang off relations, relation by relation. -/
theorem buckets_perm {n : ℕ} (hplace : ∀ id k, parents.lookup id = some k → k < n)
    (kind : SchemaObjectKind) :
    ((List.range n).flatMap fun relation => objects.filterMap fun o =>
        if o.kind = kind ∧ parentPlace parents o = some relation then
          CatalogEntry.ofObject relation o
        else none).Perm
      (objects.filterMap fun o =>
        if o.kind = kind then
          (parentPlace parents o).bind (CatalogEntry.ofObject · o)
        else none) := by
  have hbuckets := Buckets.flatMap_range_filterMap_perm
    (fun o => if o.kind = kind then parentPlace parents o else none)
    (fun relation o =>
      if o.kind = kind ∧ parentPlace parents o = some relation then
        CatalogEntry.ofObject relation o
      else none) (n := n) ?_ ?_ objects
  · refine hbuckets.trans (List.Perm.of_eq ?_)
    apply List.filterMap_congr
    intro o _
    by_cases hkind : o.kind = kind
    · cases parentPlace parents o <;> simp [hkind]
    · simp [hkind]
  · intro o k hk
    obtain ⟨-, hk⟩ := Option.ite_none_right_eq_some.1 hk
    obtain ⟨id, -, hlookup⟩ := Option.bind_eq_some_iff.1 hk
    exact hplace id k hlookup
  · intro k o hk
    refine if_neg fun h => hk ?_
    rw [if_pos h.1, h.2]

end Building

/-! ## The arena -/

section Arena

variable [DecidableEq Id] (snapshot : SchemaSnapshot Id)

def relationsOf : List (CatalogEntry Id) :=
  snapshot.objects.filterMap relationEntry

def functionsOf : List (CatalogEntry Id) :=
  snapshot.objects.filterMap functionEntry

def parentsOf : HashMap Id ℕ :=
  parentPlaces (relationsOf snapshot)

def columnsPart : List (List (CatalogEntry Id)) :=
  (List.range (relationsOf snapshot).length).map
    (columnBucket (parentsOf snapshot) snapshot.objects)

def indexesPart : List (List (CatalogEntry Id)) :=
  (List.range (relationsOf snapshot).length).map
    (indexBucket (parentsOf snapshot) snapshot.objects)

def arena : List (CatalogEntry Id) :=
  relationsOf snapshot ++ functionsOf snapshot ++
    (columnsPart snapshot).flatten ++ (indexesPart snapshot).flatten

variable {snapshot}

omit [DecidableEq Id] in
theorem relationsOf_getElem? {i : ℕ} {e : CatalogEntry Id}
    (h : (relationsOf snapshot)[i]? = some e) :
    ∃ o ∈ snapshot.objects, o.isRelation ∧
      CatalogEntry.ofObject 0 o = some e := by
  obtain ⟨o, ho, he⟩ := List.mem_filterMap.1 (List.mem_of_getElem? h)
  rw [relationEntry_eq o 0, Option.ite_none_right_eq_some] at he
  exact ⟨o, ho, he.1, he.2⟩

variable (hnodup : (snapshot.objects.map SchemaObject.id).Nodup)

include hnodup

theorem lookup_parentsOf {id : Id} {i : ℕ} :
    (parentsOf snapshot).lookup id = some i ↔
      ∃ e, (relationsOf snapshot)[i]? = some e ∧ e.id = id := by
  refine HashMap.lookup_places_eq_some_iff (hnodup.sublist ?_)
  refine Buckets.map_filterMap_sublist ?_ _
  intro o e he
  rw [relationEntry_eq o 0, Option.ite_none_right_eq_some] at he
  exact CatalogEntry.ofObject_id he.2

theorem lookup_parentsOf_lt {id : Id} {i : ℕ}
    (h : (parentsOf snapshot).lookup id = some i) :
    i < (relationsOf snapshot).length := by
  obtain ⟨e, he, -⟩ := (lookup_parentsOf hnodup).1 h
  exact (List.getElem?_eq_some_iff.1 he).1

/-- The arena holds each object of the snapshot at most once. -/
theorem arena_perm : (arena snapshot).Perm
    (snapshot.objects.filterMap (arenaEntry (parentsOf snapshot))) := by
  have hlt : ∀ id k, (parentsOf snapshot).lookup id = some k →
      k < (relationsOf snapshot).length := fun id k =>
    lookup_parentsOf_lt hnodup
  have hcolumns : (columnsPart snapshot).flatten.Perm
      (snapshot.objects.filterMap fun o =>
        if o.kind = .column then
          (parentPlace (parentsOf snapshot) o).bind
            (CatalogEntry.ofObject · o)
        else none) := by
    refine .trans ?_ (buckets_perm snapshot.objects hlt .column)
    rw [columnsPart, ← List.flatMap_def]
    exact List.Perm.flatMap_left _ fun relation _ => columnBucket_perm _ _ _
  have hindexes : (indexesPart snapshot).flatten.Perm
      (snapshot.objects.filterMap fun o =>
        if o.kind = .index then
          (parentPlace (parentsOf snapshot) o).bind
            (CatalogEntry.ofObject · o)
        else none) := by
    refine .trans ?_ (buckets_perm snapshot.objects hlt .index)
    rw [indexesPart, ← List.flatMap_def]
    refine List.Perm.flatMap_left _ fun relation _ => List.Perm.of_eq ?_
    exact List.filterMap_congr fun o _ => indexEntry_eq _ relation o
  refine ((List.Perm.append_left _ hcolumns).append hindexes).trans ?_
  simp only [relationsOf, functionsOf, List.filterMap_eq_flatMap_toList]
  refine (((List.flatMap_append_perm _ _ _).append_right _).append_right
    _).trans ?_
  refine ((List.flatMap_append_perm _ _ _).append_right _).trans ?_
  refine (List.flatMap_append_perm _ _ _).trans (List.Perm.of_eq ?_)
  apply List.flatMap_congr
  intro o _
  cases o <;> simp [relationEntry, functionEntry, arenaEntry,
    SchemaObject.kind, SchemaObject.parentId, CatalogEntry.ofObject]

theorem mem_arena_iff {e : CatalogEntry Id} : e ∈ arena snapshot ↔
    ∃ o ∈ snapshot.objects, arenaEntry (parentsOf snapshot) o = some e := by
  rw [(arena_perm hnodup).mem_iff, List.mem_filterMap]

theorem nodup_arena : ((arena snapshot).map CatalogEntry.id).Nodup := by
  rw [((arena_perm hnodup).map _).nodup_iff]
  refine hnodup.sublist (Buckets.map_filterMap_sublist ?_ _)
  intro o e he
  obtain ⟨parent, hentry, -⟩ := ofObject_of_arenaEntry he
  exact CatalogEntry.ofObject_id hentry

/-- The relation of an object is in the snapshot, or the object has none, just
when the arena holds the object. -/
theorem shows_iff {o : SchemaObject Id} (ho : o ∈ snapshot.objects) :
    Shows snapshot o ↔ ∃ e, arenaEntry (parentsOf snapshot) o = some e := by
  have hsome : ∀ place, o.kind ≠ .database →
      ∃ e, CatalogEntry.ofObject place o = some e := by
    intro place hkind
    cases o <;> first | exact ⟨_, rfl⟩ | exact absurd rfl hkind
  constructor
  · rintro ⟨-, hkind, hparent⟩
    rw [arenaEntry]
    cases hid : o.parentId with
    | none => simpa using hsome 0 hkind
    | some id =>
        obtain ⟨r, hr, hrelation, rfl⟩ := hparent id hid
        obtain ⟨e, he⟩ : ∃ e, relationEntry r = some e := by
          rw [relationEntry_eq r 0, if_pos hrelation]
          cases r <;> first | exact ⟨_, rfl⟩ | cases hrelation
        have hmem : e ∈ relationsOf snapshot := List.mem_filterMap.2 ⟨r, hr, he⟩
        obtain ⟨i, hi⟩ := List.mem_iff_getElem?.1 hmem
        have heid : e.id = r.id := by
          rw [relationEntry_eq r 0, if_pos hrelation] at he
          exact CatalogEntry.ofObject_id he
        have hlookup := (lookup_parentsOf hnodup).2 ⟨e, hi, heid⟩
        simpa [parentPlace, hid, hlookup] using hsome i hkind
  · rintro ⟨e, he⟩
    rw [arenaEntry] at he
    refine ⟨ho, ?_, ?_⟩
    · intro hkind
      cases o <;> cases hkind
      cases he
    · intro id hid
      rw [if_neg (by simp [hid]), parentPlace, hid] at he
      obtain ⟨i, hlookup, -⟩ := Option.bind_eq_some_iff.1 he
      obtain ⟨e', he', rfl⟩ := (lookup_parentsOf hnodup).1 hlookup
      obtain ⟨r, hr, hrelation, hentry⟩ := relationsOf_getElem? he'
      exact ⟨r, hr, hrelation, (CatalogEntry.ofObject_id hentry).symm⟩

omit hnodup in
theorem getElem?_arena_of_relation {i : ℕ} {e : CatalogEntry Id}
    (h : (relationsOf snapshot)[i]? = some e) :
    (arena snapshot)[i]? = some e := by
  rw [arena, List.append_assoc, List.append_assoc,
    List.getElem?_append_left (List.getElem?_eq_some_iff.1 h).1, h]

omit hnodup in
/-- The relations are what the arena begins with. -/
theorem relation_of_getElem?_arena {i : ℕ} {e : CatalogEntry Id}
    (h : (arena snapshot)[i]? = some e) (hrelation : e.isRelation) :
    (relationsOf snapshot)[i]? = some e := by
  by_cases hi : i < (relationsOf snapshot).length
  · rwa [arena, List.append_assoc, List.append_assoc,
      List.getElem?_append_left hi] at h
  · rw [arena, List.append_assoc, List.append_assoc,
      List.getElem?_append_right (Nat.le_of_not_lt hi)] at h
    have hmem := List.mem_of_getElem? h
    rw [List.mem_append, List.mem_append] at hmem
    -- no other part holds relations
    rcases hmem with hfunction | hcolumn | hindex
    · obtain ⟨o, -, ho⟩ := List.mem_filterMap.1 hfunction
      cases o <;> cases ho
      cases hrelation
    · rw [columnsPart, ← List.flatMap_def] at hcolumn
      obtain ⟨place, -, hbucket⟩ := List.mem_flatMap.1 hcolumn
      obtain ⟨o, -, ho⟩ := List.mem_filterMap.1
        ((columnBucket_perm _ _ _).mem_iff.1 hbucket)
      obtain ⟨⟨hkind, -⟩, ho⟩ := Option.ite_none_right_eq_some.1 ho
      cases o <;> cases hkind
      cases ho
      cases hrelation
    · rw [indexesPart, ← List.flatMap_def] at hindex
      obtain ⟨place, -, hbucket⟩ := List.mem_flatMap.1 hindex
      obtain ⟨o, -, ho⟩ := List.mem_filterMap.1 hbucket
      rw [indexEntry_eq] at ho
      obtain ⟨⟨hkind, -⟩, ho⟩ := Option.ite_none_right_eq_some.1 ho
      cases o <;> cases hkind
      cases ho
      cases hrelation

omit hnodup [DecidableEq Id] in
theorem isRelation_of_relationsOf {i : ℕ} {e : CatalogEntry Id}
    (h : (relationsOf snapshot)[i]? = some e) : e.isRelation := by
  obtain ⟨o, -, hrelation, ho⟩ := relationsOf_getElem? h
  rw [CatalogEntry.ofObject_isRelation ho, hrelation]

theorem columnBucket_perm_columnsIn {i : ℕ} {e : CatalogEntry Id}
    (he : (relationsOf snapshot)[i]? = some e) :
    (columnBucket (parentsOf snapshot) snapshot.objects i).Perm
      (columnsIn snapshot e.id i) := by
  refine (columnBucket_perm _ _ _).trans (List.Perm.of_eq ?_)
  apply List.filterMap_congr
  intro o _
  refine if_congr (and_congr_right fun _ => ?_) rfl rfl
  rw [parentPlace, Option.bind_eq_some_iff]
  constructor
  · rintro ⟨id, hid, hlookup⟩
    obtain ⟨e', he', rfl⟩ := (lookup_parentsOf hnodup).1 hlookup
    rw [he] at he'
    rwa [Option.some.inj he']
  · intro hid
    exact ⟨e.id, hid, (lookup_parentsOf hnodup).2 ⟨e, he, rfl⟩⟩

end Arena

/-! ## The columns of a relation -/

section Ranges

theorem length_rangesFrom (start : ℕ) (parts : List (List (CatalogEntry Id))) :
    (rangesFrom start parts).length = parts.length := by
  induction parts generalizing start with
  | nil => rfl
  | cons part parts ih => rw [rangesFrom, List.length_cons, ih, List.length_cons]

/-- A range cuts its part out of the whole. -/
theorem rangesFrom_getElem? (before after : List (CatalogEntry Id))
    {parts : List (List (CatalogEntry Id))} {i : ℕ}
    {part : List (CatalogEntry Id)} (h : parts[i]? = some part) :
    ∃ start stop, (rangesFrom before.length parts)[i]? = some (start, stop) ∧
      ((before ++ parts.flatten ++ after).take stop).drop start = part := by
  induction parts generalizing before i with
  | nil => cases h
  | cons head parts ih =>
      cases i with
      | zero =>
          obtain rfl := Option.some.inj h
          refine ⟨before.length, before.length + head.length, rfl, ?_⟩
          rw [List.flatten_cons, List.append_assoc, List.append_assoc,
            List.take_length_add_append, List.drop_left, List.take_left]
      | succ i =>
          obtain ⟨start, stop, hrange, hcut⟩ := ih (before ++ head) h
          refine ⟨start, stop, ?_, ?_⟩
          · rwa [List.length_append] at hrange
          · rwa [List.flatten_cons, ← List.append_assoc before]

end Ranges

/-! ## The catalog of a snapshot -/

section Represents

variable [DecidableEq Id] [Unicode] {snapshot : SchemaSnapshot Id}

theorem object_fromSnapshot (i : ℕ) :
    (fromSnapshot snapshot).object i = (arena snapshot)[i]? :=
  rfl

/-- The columns of the relation at `i` are what its bucket holds. -/
theorem columnsOf_fromSnapshot {i : ℕ}
    (h : i < (relationsOf snapshot).length) :
    (fromSnapshot snapshot).columnsOf i =
      columnBucket (parentsOf snapshot) snapshot.objects i := by
  have hpart : (columnsPart snapshot)[i]? =
      some (columnBucket (parentsOf snapshot) snapshot.objects i) := by
    rw [columnsPart, List.getElem?_map, List.getElem?_range h, Option.map_some]
  obtain ⟨start, stop, hrange, hcut⟩ := rangesFrom_getElem?
    (relationsOf snapshot ++ functionsOf snapshot)
    (indexesPart snapshot).flatten hpart
  have hranges : (fromSnapshot snapshot).columnRanges[i]? =
      some (start, stop) := by
    rwa [List.length_append] at hrange
  rw [columnsOf, hranges]
  exact hcut

theorem columnsOf_fromSnapshot_of_le {i : ℕ}
    (h : (relationsOf snapshot).length ≤ i) :
    (fromSnapshot snapshot).columnsOf i = [] := by
  have hranges : (fromSnapshot snapshot).columnRanges[i]? = none := by
    rw [List.getElem?_eq_none_iff]
    change (rangesFrom _ (columnsPart snapshot)).length ≤ i
    rwa [length_rangesFrom, columnsPart, List.length_map, List.length_range]
  rw [columnsOf, hranges]

/-- The key under which a relation is found without quotes. -/
def foldedKey (e : CatalogEntry Id) : Text × Text :=
  (toLowercase (e.schema.getD []), toLowercase e.name)

theorem relationFolded_fromSnapshot (schema name : Text) :
    (fromSnapshot snapshot).relationFolded schema name =
      ((relationsOf snapshot).zipIdx.filter fun p =>
        decide (foldedKey p.1 = (toLowercase schema, toLowercase name))).map
        Prod.snd :=
  HashMap.getD_lookup_foldl_append
    (fun p : CatalogEntry Id × ℕ => foldedKey p.1) Prod.snd
    (relationsOf snapshot).zipIdx ∅ (toLowercase schema, toLowercase name)

theorem mem_relationFolded_iff {schema name : Text} {i : ℕ} :
    i ∈ (fromSnapshot snapshot).relationFolded schema name ↔
      ∃ e, (relationsOf snapshot)[i]? = some e ∧
        foldedKey e = (toLowercase schema, toLowercase name) := by
  simp only [relationFolded_fromSnapshot, List.mem_map, List.mem_filter,
    Prod.exists, exists_eq_right, List.mem_zipIdx_iff_getElem?,
    decide_eq_true_eq]

variable (hnodup : (snapshot.objects.map SchemaObject.id).Nodup)

include hnodup

theorem byId_fromSnapshot_iff {id : Id} {i : ℕ} :
    (fromSnapshot snapshot).byId id = some i ↔
      ∃ e, (fromSnapshot snapshot).object i = some e ∧ e.id = id :=
  HashMap.lookup_places_eq_some_iff (nodup_arena hnodup)

theorem exists_object_of_arena {i : ℕ} {e : CatalogEntry Id}
    (h : (fromSnapshot snapshot).object i = some e) :
    ∃ o ∈ snapshot.objects, arenaEntry (parentsOf snapshot) o = some e :=
  (mem_arena_iff hnodup).1 (List.mem_of_getElem? h)

/-- The places are as unique as the ids. -/
theorem place_of_shows {o : SchemaObject Id} (ho : Shows snapshot o) :
    ∃ i, (fromSnapshot snapshot).byId o.id = some i ∧
      (∃ parent, (fromSnapshot snapshot).object i =
        CatalogEntry.ofObject parent o) ∧
      ∀ j e, (fromSnapshot snapshot).object j = some e →
        (e.id = o.id ↔ j = i) := by
  obtain ⟨e, he⟩ := (shows_iff hnodup ho.1).1 ho
  obtain ⟨i, hi⟩ := List.mem_iff_getElem?.1
    ((mem_arena_iff hnodup).2 ⟨o, ho.1, he⟩)
  obtain ⟨parent, hentry, -⟩ := ofObject_of_arenaEntry he
  have hid := CatalogEntry.ofObject_id hentry
  have hbyId := (byId_fromSnapshot_iff hnodup).2 ⟨e, hi, hid⟩
  refine ⟨i, hbyId, ⟨parent, by rw [object_fromSnapshot, hi, hentry]⟩, ?_⟩
  intro j e' he'
  constructor
  · intro hid'
    have hbyId' := (byId_fromSnapshot_iff hnodup).2 ⟨e', he', hid'⟩
    rw [hbyId] at hbyId'
    exact (Option.some.inj hbyId').symm
  · rintro rfl
    rw [object_fromSnapshot, hi] at he'
    rw [← Option.some.inj he', hid]

theorem relation_of_parent {i p : ℕ} {e : CatalogEntry Id}
    (he : (fromSnapshot snapshot).object i = some e)
    (hp : e.parent = some p) :
    ∃ o ∈ snapshot.objects, o.id = e.id ∧
      ∃ r, (fromSnapshot snapshot).object p = some r ∧ r.isRelation ∧
        o.parentId = some r.id := by
  obtain ⟨o, ho, harena⟩ := exists_object_of_arena hnodup he
  obtain ⟨parent, hentry, hparent⟩ := ofObject_of_arenaEntry harena
  rw [CatalogEntry.ofObject_parent hentry, Option.map_eq_some_iff] at hp
  obtain ⟨id, hid, rfl⟩ := hp
  obtain ⟨r, hr, rfl⟩ := (lookup_parentsOf hnodup).1 (hparent id hid)
  obtain ⟨o', -, hrelation, ho'⟩ := relationsOf_getElem? hr
  refine ⟨o, ho, (CatalogEntry.ofObject_id hentry).symm, r,
    getElem?_arena_of_relation hr, ?_, hid⟩
  rw [CatalogEntry.ofObject_isRelation ho', hrelation]

/-- The catalog of a snapshot, whose objects have different ids, shows what the
snapshot has. -/
theorem represents_fromSnapshot : (fromSnapshot snapshot).Represents snapshot where
  place := fun o ho => place_of_shows hnodup ho
  shown := by
    intro i e he
    obtain ⟨o, ho, harena⟩ := exists_object_of_arena hnodup he
    obtain ⟨parent, hentry, -⟩ := ofObject_of_arenaEntry harena
    exact ⟨o, (shows_iff hnodup ho).2 ⟨e, harena⟩,
      (CatalogEntry.ofObject_id hentry).symm⟩
  found := fun id i hi => (byId_fromSnapshot_iff hnodup).1 hi
  parent := fun i e p he hp => relation_of_parent hnodup he hp
  columns := by
    intro i e he hrelation
    have hr := relation_of_getElem?_arena he hrelation
    rw [columnsOf_fromSnapshot (List.getElem?_eq_some_iff.1 hr).1]
    exact ⟨columnBucket_perm_columnsIn hnodup hr, columnBucket_pairwise _ _ _⟩
  noColumns := by
    intro i hnone
    refine columnsOf_fromSnapshot_of_le (Nat.le_of_not_lt fun hi => ?_)
    have hr := List.getElem?_eq_getElem hi
    exact hnone _ (getElem?_arena_of_relation hr) (isRelation_of_relationsOf hr)
  folded := by
    intro schema name i
    rw [mem_relationFolded_iff]
    constructor
    · rintro ⟨e, he, hkey⟩
      exact ⟨e, getElem?_arena_of_relation he, isRelation_of_relationsOf he,
        Prod.mk.inj hkey⟩
    · rintro ⟨e, he, hrelation, hschema, hname⟩
      exact ⟨e, relation_of_getElem?_arena he hrelation,
        Prod.ext hschema hname⟩
  foldedOrder := by
    intro schema name
    rw [relationFolded_fromSnapshot]
    have hsorted : ((relationsOf snapshot).zipIdx.map Prod.snd).Pairwise
        (· < ·) := by
      rw [List.zipIdx_map_snd]
      exact List.pairwise_lt_range'
    exact hsorted.sublist (List.filter_sublist.map _)
  foldedHit := by
    intro schema name i hi
    obtain ⟨⟨e, j⟩, hmem, heq⟩ :=
      List.mem_map.1 (HashMap.mem_of_lookup_collect hi)
    simp only [Prod.mk.injEq] at heq
    obtain ⟨⟨rfl, rfl⟩, rfl⟩ := heq
    exact mem_relationFolded_iff.2
      ⟨e, List.mem_zipIdx_iff_getElem?.1 hmem, rfl⟩

end Represents

section Sample

local instance asciiArena : Unicode := Unicode.ascii

/-- Columns before and after their table, and an index whose table is missing. -/
def mixedSnapshot : SchemaSnapshot ℕ where
  id := ⟨"s"⟩
  connectionId := ⟨"c"⟩
  version := 1
  objects := [.column 11 1 "name" "text" true 2 none,
    .index 20 7 "missing_pkey" ["id"] true "btree",
    .function 30 "public" "now" [] "timestamptz" "sql",
    .table 1 "public" "users" none,
    .column 10 1 "id" "integer" false 1 none,
    .view 2 "public" "Users" "select 1"]
  keywords := []
  fingerprints := []

theorem represents_fromSnapshot_mixed :
    (fromSnapshot mixedSnapshot).Represents mixedSnapshot ∧
      (fromSnapshot mixedSnapshot).objects.map CatalogEntry.id =
        [1, 2, 30, 10, 11] :=
  ⟨represents_fromSnapshot (by decide), by decide⟩

end Sample

end CatalogCache

end Tempr.Intel
