import Tempr.Services.SchemaSplice

/-!
# Well-formed object lists

An object list is well formed when no id occurs twice and the relation of every
column and index is there. A splice keeps it so: what is dropped takes its
columns and indexes along, what is in one schema with its relation leaves with
it, and what is read again brings its relation.
-/

namespace Tempr.Services.SchemaService

open Tempr.Support

variable {Id : Type}

/-- Ids are unique, and the parent of a column or an index is there, and is
neither a column nor an index. -/
structure WellFormed (objects : List (SchemaObject Id)) : Prop where
  ids : (objects.map SchemaObject.id).Nodup
  parent : ∀ o ∈ objects, ∀ p, o.parentId = some p →
    ∃ P ∈ objects, P.id = p ∧ P.parentId = none

/-- The object is in the schema that it or its relation names. -/
def InSchema (objects : List (SchemaObject Id)) (o : SchemaObject Id)
    (schema : String) : Prop :=
  o.ownSchema = some schema ∨
    ∃ P ∈ objects, o.parentId = some P.id ∧ P.ownSchema = some schema

/-- With a relation all its columns and indexes are dropped. -/
def DropsChildren (cached : List (SchemaObject Id)) (dropped : List Id) : Prop :=
  ∀ o ∈ cached, ∀ p, o.parentId = some p → p ∈ dropped → o.id ∈ dropped

/-- The ids are derived from the kinds. -/
def DerivedIds (ids : ObjectIds Id) (connectionId : ConnectionId)
    (objects : List (SchemaObject Id)) : Prop :=
  ∀ o ∈ objects, ∃ n, o.id = ids.derived connectionId o.kind n

section Cached

variable [DecidableEq Id] {objects : List (SchemaObject Id)}
  {o P : SchemaObject Id}

theorem WellFormed.lookup_indexById (h : WellFormed objects) (hP : P ∈ objects) :
    (indexById objects).lookup P.id = some P := by
  apply HashMap.lookup_collect
  · exact List.mem_map.mpr ⟨P, hP, rfl⟩
  · intro Q hQ
    obtain ⟨Q', hmem, heq⟩ := List.mem_map.mp hQ
    obtain ⟨hid, rfl⟩ := Prod.mk.inj heq
    exact List.inj_on_of_nodup_map h.ids hmem hP hid

/-- One link leads from a child to the schema. -/
theorem WellFormed.objectSchema_child (h : WellFormed objects) {p : Id}
    (ho : o ∈ objects) (hp : o.parentId = some p) :
    ∃ P ∈ objects, P.id = p ∧ P.parentId = none ∧
      objectSchema (indexById objects) o = P.ownSchema ∧
      objectSchema (indexById objects) P = P.ownSchema := by
  obtain ⟨P, hP, rfl, hroot⟩ := h.parent o ho p hp
  exact ⟨P, hP, rfl, hroot,
    objectSchema_of_parent hp (h.lookup_indexById hP) hroot,
    objectSchema_of_no_parent _ hroot⟩

omit [DecidableEq Id] in
theorem ownSchema_of_parentId {p : Id} (hp : o.parentId = some p) :
    o.ownSchema = none := by
  cases o with
  | column => rfl
  | index => rfl
  | table => cases hp
  | view => cases hp
  | function => cases hp
  | database => cases hp

theorem WellFormed.objectSchema_eq_some_iff (h : WellFormed objects)
    (ho : o ∈ objects) {schema : String} :
    objectSchema (indexById objects) o = some schema ↔
      InSchema objects o schema := by
  cases hp : o.parentId with
  | none =>
    rw [objectSchema_of_no_parent _ hp, InSchema, hp]
    simp
  | some p =>
    obtain ⟨P, hP, rfl, -, hschema, -⟩ := h.objectSchema_child ho hp
    rw [hschema, InSchema, ownSchema_of_parentId hp, hp]
    constructor
    · intro hown
      exact Or.inr ⟨P, hP, rfl, hown⟩
    · rintro (hnone | ⟨Q, hQ, hid, hown⟩)
      · cases hnone
      · have heq : P = Q := List.inj_on_of_nodup_map h.ids hP hQ
          (Option.some.inj hid)
        exact heq ▸ hown

/-- A child that is retained has its relation retained. -/
theorem WellFormed.retained_parent (h : WellFormed objects)
    {dropped : List Id} {schemas : List String}
    (hdropped : DropsChildren objects dropped)
    (ho : o ∈ retained objects dropped schemas) {p : Id}
    (hp : o.parentId = some p) :
    ∃ P ∈ retained objects dropped schemas, P.id = p ∧ P.parentId = none := by
  obtain ⟨hmem, hkept, huntouched⟩ := mem_retained_iff.mp ho
  obtain ⟨P, hP, rfl, hroot, hchild, hown⟩ := h.objectSchema_child hmem hp
  refine ⟨P, mem_retained_iff.mpr ⟨hP, ?_, ?_⟩, rfl, hroot⟩
  · exact fun hdrop => hkept (hdropped o hmem P.id hp hdrop)
  · intro schema hschema
    exact huntouched schema (hchild.trans (hown.symm.trans hschema))

end Cached

/-! ## What is read again -/

section Entries

variable {ids : ObjectIds Id} {connectionId : ConnectionId}
  {entries : List SchemaSnapshotEntry} {o : SchemaObject Id}

theorem parentId_of_kind {o o' : SchemaObject Id} (hkind : o.kind = o'.kind)
    (h : o.parentId = none) : o'.parentId = none := by
  cases o' with
  | table => rfl
  | view => rfl
  | function => rfl
  | database => rfl
  | column => cases o <;> first | cases hkind; done | cases h
  | index => cases o <;> first | cases hkind; done | cases h

theorem relationObject_spec {entry : SchemaSnapshotEntry}
    (h : relationObject ids connectionId entry = some o) :
    o.parentId = none ∧ ∃ n, o.id = ids.derived connectionId o.kind n := by
  cases entry with
  | database => cases h; exact ⟨rfl, _, rfl⟩
  | table => cases h; exact ⟨rfl, _, rfl⟩
  | view => cases h; exact ⟨rfl, _, rfl⟩
  | column => cases h
  | index => cases h
  | function => cases h

theorem childObject_spec {parents : HashMap (String × String) Id}
    {entry : SchemaSnapshotEntry}
    (h : childObject ids connectionId parents entry = some o) :
    (∃ n, o.id = ids.derived connectionId o.kind n) ∧
      ∀ p, o.parentId = some p → ∃ name, parents.lookup name = some p := by
  cases entry with
  | column =>
    obtain ⟨p, hp, rfl⟩ := Option.map_eq_some_iff.mp h
    exact ⟨⟨_, rfl⟩, fun q hq => ⟨_, hp.trans hq⟩⟩
  | index =>
    obtain ⟨p, hp, rfl⟩ := Option.map_eq_some_iff.mp h
    exact ⟨⟨_, rfl⟩, fun q hq => ⟨_, hp.trans hq⟩⟩
  | function =>
    cases h
    exact ⟨⟨_, rfl⟩, fun q hq => by cases hq⟩
  | database => cases h
  | table => cases h
  | view => cases h

/-- The parents of the first pass are the relations it found. -/
theorem parentEntry_spec {entry : SchemaSnapshotEntry}
    {pair : (String × String) × Id}
    (h : parentEntry ids connectionId entry = some pair) :
    ∃ P, relationObject ids connectionId entry = some P ∧ P.id = pair.2 := by
  cases entry with
  | table => cases h; exact ⟨_, rfl, rfl⟩
  | view => cases h; exact ⟨_, rfl, rfl⟩
  | database => cases h
  | column => cases h
  | index => cases h
  | function => cases h

variable (ids connectionId entries)

theorem derivedIds_objectsFromEntries :
    DerivedIds ids connectionId
      (objectsFromEntries ids connectionId entries) := by
  intro o ho
  rcases List.mem_append.mp ho with ho | ho
  · obtain ⟨entry, -, hentry⟩ := List.mem_filterMap.mp ho
    exact (relationObject_spec hentry).2
  · obtain ⟨entry, -, hentry⟩ := List.mem_filterMap.mp ho
    exact (childObject_spec hentry).1

/-- Whatever the entries are, the relation of a child is built with it. -/
theorem parent_objectsFromEntries {o : SchemaObject Id}
    (ho : o ∈ objectsFromEntries ids connectionId entries) {p : Id}
    (hp : o.parentId = some p) :
    ∃ P ∈ objectsFromEntries ids connectionId entries,
      P.id = p ∧ P.parentId = none := by
  rcases List.mem_append.mp ho with ho | ho
  · obtain ⟨entry, -, hentry⟩ := List.mem_filterMap.mp ho
    rw [(relationObject_spec hentry).1] at hp
    cases hp
  · obtain ⟨entry, -, hentry⟩ := List.mem_filterMap.mp ho
    obtain ⟨name, hlookup⟩ := (childObject_spec hentry).2 p hp
    obtain ⟨parent, hparent, hpair⟩ :=
      List.mem_filterMap.mp (HashMap.mem_of_lookup_collect hlookup)
    obtain ⟨P, hP, hid⟩ := parentEntry_spec hpair
    refine ⟨P, List.mem_append_left _ ?_, hid, (relationObject_spec hP).1⟩
    exact List.mem_filterMap.mpr ⟨parent, hparent, hP⟩

end Entries

/-! ## The splice -/

section Splice

variable [DecidableEq Id] {seen : List Id} {l : List (SchemaObject Id)}

theorem withNewIds_sublist (seen : List Id) (l : List (SchemaObject Id)) :
    (withNewIds seen l).Sublist l := by
  induction l generalizing seen with
  | nil => exact List.Sublist.refl []
  | cons o l ih =>
    rw [withNewIds]
    split
    · exact (ih seen).cons o
    · exact (ih (o.id :: seen)).cons_cons o

theorem withNewIds_nodup (seen : List Id) (l : List (SchemaObject Id)) :
    ((withNewIds seen l).map SchemaObject.id).Nodup := by
  induction l generalizing seen with
  | nil => exact List.nodup_nil
  | cons o l ih =>
    rw [withNewIds]
    split
    · exact ih seen
    · rw [List.map_cons, List.nodup_cons]
      refine ⟨fun hmem => ?_, ih (o.id :: seen)⟩
      obtain ⟨o', ho', hid⟩ := List.mem_map.mp hmem
      exact (mem_withNewIds ho').2 (hid ▸ List.mem_cons_self)

variable {cached refreshed : List (SchemaObject Id)} {dropped : List Id}
  {schemas : List String} {o : SchemaObject Id}

theorem mem_spliceObjects :
    o ∈ spliceObjects cached refreshed dropped schemas ↔
      o ∈ retained cached dropped schemas ∨
        o ∈ withNewIds
          ((retained cached dropped schemas).map SchemaObject.id) refreshed :=
  List.mem_append

/-- Every id that is read again is in the splice. -/
theorem exists_mem_spliceObjects (ho : o ∈ refreshed) :
    ∃ o' ∈ spliceObjects cached refreshed dropped schemas, o'.id = o.id := by
  by_cases hseen :
      o.id ∈ (retained cached dropped schemas).map SchemaObject.id
  · obtain ⟨o', ho', hid⟩ := List.mem_map.mp hseen
    exact ⟨o', mem_spliceObjects.mpr (Or.inl ho'), hid⟩
  · obtain ⟨o', ho', hid⟩ := exists_mem_withNewIds ho hseen
    exact ⟨o', mem_spliceObjects.mpr (Or.inr ho'), hid⟩

theorem nodup_spliceObjects (refreshed : List (SchemaObject Id))
    (dropped : List Id) (schemas : List String)
    (hcached : (cached.map SchemaObject.id).Nodup) :
    ((spliceObjects cached refreshed dropped schemas).map
      SchemaObject.id).Nodup := by
  rw [spliceObjects, List.map_append, List.nodup_append]
  refine ⟨?_, withNewIds_nodup _ _, ?_⟩
  · exact hcached.sublist (List.filter_sublist.map SchemaObject.id)
  · intro id hold id' hnew heq
    obtain ⟨o, ho, rfl⟩ := List.mem_map.mp hnew
    exact (mem_withNewIds ho).2 (heq ▸ hold)

end Splice

section Result

variable [DecidableEq Id] (ids : ObjectIds Id) (connectionId : ConnectionId)
  {cached : List (SchemaObject Id)} {dropped : List Id}

/-- The relation of a child in the splice is in the splice. -/
theorem parent_spliceObjects (hcached : WellFormed cached)
    (hdropped : DropsChildren cached dropped)
    (entries : List SchemaSnapshotEntry) (schemas : List String)
    {o : SchemaObject Id} {p : Id}
    (ho : o ∈ spliceObjects cached
      (objectsFromEntries ids connectionId entries) dropped schemas)
    (hp : o.parentId = some p) :
    ∃ P ∈ spliceObjects cached
        (objectsFromEntries ids connectionId entries) dropped schemas,
      P.id = p ∧ (DerivedIds ids connectionId cached → P.parentId = none) := by
  rcases mem_spliceObjects.mp ho with hold | hnew
  · obtain ⟨P, hP, hid, hroot⟩ := hcached.retained_parent hdropped hold hp
    exact ⟨P, mem_spliceObjects.mpr (Or.inl hP), hid, fun _ => hroot⟩
  · obtain ⟨Q, hQ, hid, hroot⟩ := parent_objectsFromEntries ids connectionId
      entries (mem_withNewIds hnew).1 hp
    obtain ⟨P, hP, hsame⟩ := exists_mem_spliceObjects hQ
    refine ⟨P, hP, hsame.trans hid, fun hderived => ?_⟩
    -- one id is derived from one kind
    have hkind : ∃ n, P.id = ids.derived connectionId P.kind n := by
      rcases mem_spliceObjects.mp hP with hP | hP
      · exact hderived P (mem_retained_iff.mp hP).1
      · exact derivedIds_objectsFromEntries ids connectionId entries P
          (mem_withNewIds hP).1
    obtain ⟨n, hn⟩ := hkind
    obtain ⟨m, hm⟩ :=
      derivedIds_objectsFromEntries ids connectionId entries Q hQ
    rw [hn, hm] at hsame
    exact parentId_of_kind (ids.derived_inj hsame).1.symm hroot

/-- A splice of a well-formed list has unique ids and every parent; what it
keeps of the cache is what was neither dropped nor in a touched schema, and all
else was read again. With ids that are derived from the kinds it is well formed
again, and its ids are derived. -/
theorem spliceObjects_wellFormed (hcached : WellFormed cached)
    (hdropped : DropsChildren cached dropped)
    (entries : List SchemaSnapshotEntry) (schemas : List String) :
    ((spliceObjects cached (objectsFromEntries ids connectionId entries)
        dropped schemas).map SchemaObject.id).Nodup ∧
      (∀ o ∈ spliceObjects cached (objectsFromEntries ids connectionId entries)
          dropped schemas, ∀ p, o.parentId = some p →
        ∃ P ∈ spliceObjects cached
          (objectsFromEntries ids connectionId entries) dropped schemas,
          P.id = p) ∧
      (∃ kept added, spliceObjects cached
            (objectsFromEntries ids connectionId entries) dropped schemas =
          kept ++ added ∧
        kept.Sublist cached ∧
        added.Sublist (objectsFromEntries ids connectionId entries) ∧
        (∀ o ∈ kept, o.id ∉ dropped) ∧
        ∀ o ∈ cached, o.id ∉ dropped →
          (∀ schema, InSchema cached o schema → schema ∉ schemas) →
            o ∈ kept) ∧
      (DerivedIds ids connectionId cached →
        WellFormed (spliceObjects cached
            (objectsFromEntries ids connectionId entries) dropped schemas) ∧
          DerivedIds ids connectionId (spliceObjects cached
            (objectsFromEntries ids connectionId entries) dropped schemas)) := by
  have hids := nodup_spliceObjects
    (objectsFromEntries ids connectionId entries) dropped schemas hcached.ids
  refine ⟨hids, ?_, ?_, ?_⟩
  · intro o ho p hp
    obtain ⟨P, hP, hid, -⟩ := parent_spliceObjects ids connectionId hcached
      hdropped entries schemas ho hp
    exact ⟨P, hP, hid⟩
  · refine ⟨_, _, rfl, List.filter_sublist, withNewIds_sublist _ _, ?_, ?_⟩
    · exact fun o ho => (mem_retained_iff.mp ho).2.1
    · intro o ho hkept huntouched
      refine mem_retained_iff.mpr ⟨ho, hkept, fun schema hschema => ?_⟩
      exact huntouched schema ((hcached.objectSchema_eq_some_iff ho).mp hschema)
  · intro hderived
    refine ⟨⟨hids, fun o ho p hp => ?_⟩, fun o ho => ?_⟩
    · obtain ⟨P, hP, hid, hroot⟩ := parent_spliceObjects ids connectionId
        hcached hdropped entries schemas ho hp
      exact ⟨P, hP, hid, hroot hderived⟩
    · rcases mem_spliceObjects.mp ho with hold | hnew
      · exact hderived o (mem_retained_iff.mp hold).1
      · exact derivedIds_objectsFromEntries ids connectionId entries o
          (mem_withNewIds hnew).1

end Result

/-! ## A splice -/

/-- Ids that are the pairs which they are derived from. -/
def pairIds : ObjectIds (SchemaObjectKind × Nat) where
  derived _ kind nativeId := (kind, nativeId)
  derived_inj h := Prod.mk.inj h

/-- A table, which its column precedes, and a table of another schema. -/
def twoSchemas : List (SchemaObject (SchemaObjectKind × Nat)) :=
  [.column (.column, 5) (.table, 1) "email" "text" true 1 none,
    .table (.table, 1) "public" "users" none,
    .table (.table, 2) "audit" "log" none]

theorem wellFormed_twoSchemas : WellFormed twoSchemas := by
  constructor
  · decide
  · intro o ho p hp
    simp only [twoSchemas, List.mem_cons, List.not_mem_nil, or_false] at ho
    rcases ho with rfl | rfl | rfl
    · obtain rfl := Option.some.inj hp
      exact ⟨.table (.table, 1) "public" "users" none, by simp [twoSchemas],
        rfl, rfl⟩
    · cases hp
    · cases hp

theorem spliceObjects_wellFormed_twoSchemas :
    ((spliceObjects twoSchemas
        (objectsFromEntries pairIds ⟨"a"⟩ [.table 3 "audit" "trail" none])
        [(.table, 2)] ["audit"]).map SchemaObject.id).Nodup ∧
      spliceObjects twoSchemas
          (objectsFromEntries pairIds ⟨"a"⟩ [.table 3 "audit" "trail" none])
          [(.table, 2)] ["audit"] =
        [.column (.column, 5) (.table, 1) "email" "text" true 1 none,
          .table (.table, 1) "public" "users" none,
          .table (.table, 3) "audit" "trail" none] := by
  have hdropped : DropsChildren twoSchemas [(.table, 2)] := by
    intro o ho p hp hmem
    simp only [twoSchemas, List.mem_cons, List.not_mem_nil, or_false] at ho
    obtain rfl := List.mem_singleton.mp hmem
    rcases ho with rfl | rfl | rfl
    · exact absurd hp (by decide)
    · cases hp
    · cases hp
  exact ⟨(spliceObjects_wellFormed pairIds ⟨"a"⟩ wellFormed_twoSchemas hdropped
    [.table 3 "audit" "trail" none] ["audit"]).1, by decide +kernel⟩

end Tempr.Services.SchemaService
