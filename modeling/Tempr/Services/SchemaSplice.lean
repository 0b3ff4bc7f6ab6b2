import Tempr.Services.SchemaObjects
import Tempr.Services.SchemaDelta

/-!
# Splicing object lists

An object list is linked when every object has its own fingerprint key and the
relation of every column and index is in the list. In a linked list the schema
of an object is the one it names or the one of its relation, and the splice
keeps exactly the objects that were neither dropped nor in a touched schema.
-/

namespace Tempr.Services

open Tempr.Support

namespace SchemaObject

variable {Id : Type}

/-- The schema that an object names itself. -/
def ownSchema : SchemaObject Id → Option String
  | table _ schema _ _ => some schema
  | view _ schema _ _ => some schema
  | function _ schema _ _ _ _ => some schema
  | _ => none

/-- The relation of a column or an index. -/
def parentId : SchemaObject Id → Option Id
  | column _ parentId _ _ _ _ _ => some parentId
  | index _ parentTableId _ _ _ _ => some parentTableId
  | _ => none

/-- The object without its estimated row count. -/
def forgetRows : SchemaObject Id → SchemaObject Id
  | table id schema name _ => table id schema name none
  | o => o

@[simp] theorem forgetRows_id (o : SchemaObject Id) : o.forgetRows.id = o.id := by
  cases o <;> rfl

@[simp] theorem forgetRows_kind (o : SchemaObject Id) :
    o.forgetRows.kind = o.kind := by
  cases o <;> rfl

@[simp] theorem forgetRows_ownSchema (o : SchemaObject Id) :
    o.forgetRows.ownSchema = o.ownSchema := by
  cases o <;> rfl

@[simp] theorem forgetRows_parentId (o : SchemaObject Id) :
    o.forgetRows.parentId = o.parentId := by
  cases o <;> rfl

end SchemaObject

namespace SchemaService

variable {Id : Type} {ids : ObjectIds Id} {connectionId : ConnectionId}
  {session : Session}

/-! ## Keys of objects -/

/-- The kind of an object in a fingerprint key. -/
def foldKind : SchemaObjectKind → SchemaObjectKind
  | .view => .table
  | kind => kind

/-- `k` is the fingerprint key of `o`. -/
def Names (ids : ObjectIds Id) (connectionId : ConnectionId) (k : Key)
    (o : SchemaObject Id) : Prop :=
  o.id = ids.derived connectionId o.kind k.2 ∧ foldKind o.kind = k.1

theorem Names.eq_of_id {k k' : Key} {o o' : SchemaObject Id}
    (h : Names ids connectionId k o) (h' : Names ids connectionId k' o')
    (hid : o.id = o'.id) : k = k' := by
  rw [h.1, h'.1] at hid
  obtain ⟨hkind, hnative⟩ := ids.derived_inj hid
  exact Prod.ext (by rw [← h.2, ← h'.2, hkind]) hnative

theorem Names.eq {k k' : Key} {o : SchemaObject Id}
    (h : Names ids connectionId k o) (h' : Names ids connectionId k' o) :
    k = k' :=
  h.eq_of_id h' rfl

theorem names_forgetRows {k : Key} {o : SchemaObject Id} :
    Names ids connectionId k o.forgetRows ↔ Names ids connectionId k o := by
  simp [Names]

theorem Names.of_forgetRows {k : Key} {o o' : SchemaObject Id}
    (h : Names ids connectionId k o) (heq : o.forgetRows = o'.forgetRows) :
    Names ids connectionId k o' := by
  rw [← names_forgetRows, ← heq, names_forgetRows]
  exact h

/-- The candidates of a key are the ids of the objects it may name. -/
theorem Names.candidate {k : Key} {o : SchemaObject Id}
    (h : Names ids connectionId k o) :
    o.id ∈ candidateIds ids connectionId k := by
  obtain ⟨kind, nativeId⟩ := k
  obtain ⟨hid, rfl : foldKind o.kind = kind⟩ := h
  rw [hid]
  cases o <;> simp [candidateIds, foldKind, SchemaObject.kind]

/-- An object with a candidate id is named by the key. -/
theorem Names.of_candidate {k k' : Key} {o : SchemaObject Id}
    (h : Names ids connectionId k' o) (hk : k.1 ≠ .view)
    (hid : o.id ∈ candidateIds ids connectionId k) : k' = k := by
  obtain ⟨kind, nativeId⟩ := k
  rw [h.1, candidateIds] at hid
  rcases List.mem_cons.1 hid with heq | hview
  · obtain ⟨hkind, hnative⟩ := ids.derived_inj heq
    refine Prod.ext ?_ hnative
    rw [← h.2, hkind]
    cases kind <;> simp_all [foldKind]
  · split at hview
    · rename_i htable
      obtain ⟨hkind, hnative⟩ := ids.derived_inj (List.mem_singleton.1 hview)
      exact Prod.ext (by rw [← h.2, hkind, htable]; rfl) hnative
    · cases hview

/-- The key of a server object, in a fingerprint list. -/
def domainKey (x : ServerObject) : Key :=
  sweptKey x.fingerprint

theorem domainKey_inj {x y : ServerObject} (h : domainKey x = domainKey y) :
    x.key = y.key := by
  obtain ⟨hkind, hnative⟩ := Prod.mk.inj h
  have hsame : x.definition.objectKind = y.definition.objectKind := by
    have hx : domainKind x.definition.objectKind
        = domainKind y.definition.objectKind := hkind
    cases hdx : x.definition.objectKind <;>
      cases hdy : y.definition.objectKind <;> simp_all [domainKind]
  exact Prod.ext hsame hnative

theorem domainKey_of_key {x y : ServerObject} (h : x.key = y.key) :
    domainKey x = domainKey y := by
  obtain ⟨hkind, hnative⟩ := Prod.mk.inj h
  exact Prod.ext (congrArg domainKind hkind) hnative

theorem domainKey_ne_view (x : ServerObject) : (domainKey x).1 ≠ .view := by
  simp only [domainKey, sweptKey, ServerObject.fingerprint]
  cases x.definition.objectKind <;> simp [domainKind]

theorem domainKey_ne_database (x : ServerObject) :
    (domainKey x).1 ≠ .database := by
  simp only [domainKey, sweptKey, ServerObject.fingerprint]
  cases x.definition.objectKind <;> simp [domainKind]

theorem names_databaseObject :
    Names ids connectionId (.database, session.databaseId)
      (databaseObject ids connectionId session) :=
  ⟨rfl, rfl⟩

/-! ## Descriptions -/

variable {c : Catalog} {x : ServerObject} {o : SchemaObject Id}

theorem exists_describe (ids : ObjectIds Id) (connectionId : ConnectionId)
    (hx : x ∈ c.objects) : ∃ o, c.describe ids connectionId x = some o := by
  have hchild : ∀ n, x.definition.parent = some n →
      ∃ y, c.relation n = some y := fun n => Catalog.exists_relation hx
  cases hd : x.definition with
  | table => simp [Catalog.describe, hd]
  | view => simp [Catalog.describe, hd]
  | column relation =>
      obtain ⟨y, hy⟩ := hchild relation (by rw [hd]; rfl)
      simp [Catalog.describe, hd, hy]
  | index relation =>
      obtain ⟨y, hy⟩ := hchild relation (by rw [hd]; rfl)
      simp [Catalog.describe, hd, hy]
  | function => simp [Catalog.describe, hd]

/-- Kind and id of a description. -/
theorem describe_id (h : c.describe ids connectionId x = some o) :
    o.kind = x.definition.kind ∧
      o.id = ids.derived connectionId x.definition.kind x.nativeId := by
  cases hd : x.definition with
  | table =>
      simp only [Catalog.describe, hd, Option.some.injEq] at h
      exact h ▸ ⟨rfl, rfl⟩
  | view =>
      simp only [Catalog.describe, hd, Option.some.injEq] at h
      exact h ▸ ⟨rfl, rfl⟩
  | column =>
      simp only [Catalog.describe, hd] at h
      obtain ⟨y, -, rfl⟩ := Option.map_eq_some_iff.1 h
      exact ⟨rfl, rfl⟩
  | index =>
      simp only [Catalog.describe, hd] at h
      obtain ⟨y, -, rfl⟩ := Option.map_eq_some_iff.1 h
      exact ⟨rfl, rfl⟩
  | function =>
      simp only [Catalog.describe, hd, Option.some.injEq] at h
      exact h ▸ ⟨rfl, rfl⟩

/-- A description bears the key of what it describes. -/
theorem describe_names (h : c.describe ids connectionId x = some o) :
    Names ids connectionId (domainKey x) o := by
  obtain ⟨hkind, hid⟩ := describe_id h
  refine ⟨hkind ▸ hid, ?_⟩
  rw [hkind]
  show foldKind x.definition.kind = domainKind x.definition.objectKind
  cases x.definition <;> rfl

/-- The description of a relation or a function names its schema. -/
theorem describe_of_no_parent (hx : x.definition.parent = none)
    (h : c.describe ids connectionId x = some o) :
    o.parentId = none ∧ o.ownSchema = c.schemaOf x := by
  cases hd : x.definition <;>
    simp only [Catalog.describe, hd, Option.some.injEq, Definition.parent,
      reduceCtorEq] at h hx
  all_goals
    subst h
    simp [SchemaObject.parentId, SchemaObject.ownSchema, Catalog.schemaOf, hd]

/-- The description of a child points to the description of its relation. -/
theorem describe_of_parent {n : Nat} (hmem : x ∈ c.objects)
    (hx : x.definition.parent = some n)
    (h : c.describe ids connectionId x = some o) :
    ∃ y P, y ∈ c.objects ∧ c.relation n = some y ∧
      c.describe ids connectionId y = some P ∧ o.parentId = some P.id ∧
      P.parentId = none ∧ P.ownSchema = c.schemaOf x := by
  obtain ⟨y, hy⟩ := Catalog.exists_relation hmem hx
  obtain ⟨hymem, hname, -⟩ := Catalog.relation_eq_some_iff.1 hy
  obtain ⟨P, hP⟩ := exists_describe ids connectionId hymem
  have hroot : y.definition.parent = none := by
    cases hd : y.definition <;>
      simp_all [Definition.relationName, Definition.parent]
  obtain ⟨hparent, hschema⟩ := describe_of_no_parent hroot hP
  refine ⟨y, P, hymem, hy, hP, ?_, hparent,
    by rw [hschema, Catalog.schemaOf_child hx hy]⟩
  rw [(describe_id hP).2]
  cases hd : x.definition <;>
    simp only [Definition.parent, hd, Option.some.injEq, reduceCtorEq] at hx
  all_goals
    subst hx
    simp only [Catalog.describe, hd, hy, Option.map_some, Option.some.injEq] at h
    exact h ▸ rfl

/-! ## Linked object lists -/

/-- Every object has a key of its own, and every child's relation is there. -/
structure Linked (ids : ObjectIds Id) (connectionId : ConnectionId)
    (objects : List (SchemaObject Id)) : Prop where
  named : ∀ o ∈ objects, ∃ k, Names ids connectionId k o
  unique : ∀ o ∈ objects, ∀ o' ∈ objects, ∀ k, Names ids connectionId k o →
    Names ids connectionId k o' → o = o'
  parent : ∀ o ∈ objects, ∀ p, o.parentId = some p →
    ∃ P ∈ objects, P.id = p ∧ P.parentId = none ∧ P.ownSchema.isSome = true

variable {objects : List (SchemaObject Id)}

theorem Linked.eq_of_id (h : Linked ids connectionId objects)
    {o o' : SchemaObject Id} (ho : o ∈ objects) (ho' : o' ∈ objects)
    (hid : o.id = o'.id) : o = o' := by
  obtain ⟨k, hk⟩ := h.named o ho
  obtain ⟨k', hk'⟩ := h.named o' ho'
  obtain rfl := hk.eq_of_id hk' hid
  exact h.unique o ho o' ho' k hk hk'

variable [DecidableEq Id]

theorem lookup_indexById (h : Linked ids connectionId objects)
    {o : SchemaObject Id} (ho : o ∈ objects) :
    (indexById objects).lookup o.id = some o := by
  apply HashMap.lookup_collect
  · exact List.mem_map.2 ⟨o, ho, rfl⟩
  · intro o' ho'
    obtain ⟨o'', hmem, heq⟩ := List.mem_map.1 ho'
    obtain ⟨hid, rfl⟩ := Prod.mk.inj heq
    exact h.eq_of_id hmem ho hid

theorem mem_of_lookup_indexById {id : Id} {o : SchemaObject Id}
    (h : (indexById objects).lookup id = some o) : o ∈ objects ∧ o.id = id := by
  obtain ⟨o', hmem, heq⟩ := List.mem_map.1 (HashMap.mem_of_lookup_collect h)
  obtain ⟨hid, rfl⟩ := Prod.mk.inj heq
  exact ⟨hmem, hid⟩

theorem objectSchema_of_no_parent (byId : HashMap Id (SchemaObject Id))
    (ho : o.parentId = none) : objectSchema byId o = o.ownSchema := by
  cases o <;> first | rfl | cases ho

theorem objectSchemaWithin_of_no_parent (byId : HashMap Id (SchemaObject Id))
    (fuel : Nat) (ho : o.parentId = none) :
    objectSchemaWithin byId fuel o = o.ownSchema := by
  cases o <;> first | cases ho; done | cases fuel <;> rfl

/-- One parent link leads to a relation. -/
theorem objectSchema_of_parent {byId : HashMap Id (SchemaObject Id)} {p : Id}
    {P : SchemaObject Id} (ho : o.parentId = some p)
    (hP : byId.lookup p = some P) (hroot : P.parentId = none) :
    objectSchema byId o = P.ownSchema := by
  cases o <;> simp only [SchemaObject.parentId, reduceCtorEq,
    Option.some.injEq] at ho
  all_goals
    subst ho
    simp only [objectSchema, objectSchemaWithin, hP, Option.bind_some]
    exact objectSchemaWithin_of_no_parent byId _ hroot

/-! ## Touched schemas -/

/-- A changed key resolves to the schema of the cached object it names. -/
theorem changedSchema_spec (h : Linked ids connectionId objects) {k : Key}
    (hk : k.1 ≠ .view) {schema : String}
    (hschema : changedSchema ids connectionId (indexById objects) k
      = some schema) :
    ∃ o ∈ objects, Names ids connectionId k o ∧
      objectSchema (indexById objects) o = some schema := by
  obtain ⟨o, hfound, ho⟩ := Option.bind_eq_some_iff.1 hschema
  obtain ⟨id, hid, hlookup⟩ := List.exists_of_findSome?_eq_some hfound
  obtain ⟨hmem, rfl⟩ := mem_of_lookup_indexById hlookup
  obtain ⟨k', hk'⟩ := h.named o hmem
  obtain rfl := hk'.of_candidate hk hid
  exact ⟨o, hmem, hk', ho⟩

theorem mapM_eq_some {α β : Type} {f : α → Option β} {l : List α} {ys : List β}
    (h : l.mapM f = some ys) : ∀ y, y ∈ ys ↔ ∃ x ∈ l, f x = some y := by
  induction l generalizing ys with
  | nil =>
      obtain rfl : ys = [] := by simpa using h.symm
      simp
  | cons x l ih =>
      simp only [List.mapM_cons, Option.bind_eq_bind,
        Option.bind_eq_some_iff] at h
      obtain ⟨y, hy, zs, hzs, heq⟩ := h
      obtain rfl : y :: zs = ys := Option.some.inj heq
      intro z
      rw [List.mem_cons, ih hzs]
      simp [hy, eq_comm]

theorem mapM_eq_some_defined {α β : Type} {f : α → Option β} {l : List α}
    {ys : List β} (h : l.mapM f = some ys) : ∀ x ∈ l, ∃ y, f x = some y := by
  induction l generalizing ys with
  | nil => intro x hx; cases hx
  | cons x l ih =>
      simp only [List.mapM_cons, Option.bind_eq_bind,
        Option.bind_eq_some_iff] at h
      obtain ⟨y, hy, zs, hzs, -⟩ := h
      intro z hz
      rcases List.mem_cons.1 hz with rfl | hz
      · exact ⟨y, hy⟩
      · exact ih hzs z hz

/-- The touched schemas are those that the changed keys resolve to. -/
theorem touchedSchemas_spec {changed : List Key} {schemas : List String}
    (h : touchedSchemas ids connectionId objects changed = some schemas) :
    schemas.Nodup ∧
      (∀ k ∈ changed, ∃ schema ∈ schemas,
        changedSchema ids connectionId (indexById objects) k = some schema) ∧
      ∀ schema ∈ schemas, ∃ k ∈ changed,
        changedSchema ids connectionId (indexById objects) k = some schema := by
  obtain ⟨found, hfound, rfl⟩ := Option.map_eq_some_iff.1 h
  have hmem : ∀ schema, schema ∈ (found.insertionSort (· ≤ ·)).dedup ↔
      schema ∈ found := by
    intro schema
    rw [List.mem_dedup, List.mem_insertionSort]
  refine ⟨List.nodup_dedup _, ?_, ?_⟩
  · intro k hk
    obtain ⟨schema, hschema⟩ := mapM_eq_some_defined hfound k hk
    exact ⟨schema, (hmem schema).2
      ((mapM_eq_some hfound schema).2 ⟨k, hk, hschema⟩), hschema⟩
  · intro schema hschema
    exact (mapM_eq_some hfound schema).1 ((hmem schema).1 hschema)

/-! ## The splice -/

variable {dropped : List Id} {schemas : List String}

theorem mem_retained_iff {cached : List (SchemaObject Id)} :
    o ∈ retained cached dropped schemas ↔
      o ∈ cached ∧ o.id ∉ dropped ∧
        ∀ schema, objectSchema (indexById cached) o = some schema →
          schema ∉ schemas := by
  rw [retained, List.mem_filter, Bool.and_eq_true, decide_eq_true_eq]
  cases hschema : objectSchema (indexById cached) o with
  | none => simp
  | some schema => simp

theorem mem_withNewIds {seen : List Id} {l : List (SchemaObject Id)}
    (h : o ∈ withNewIds seen l) : o ∈ l ∧ o.id ∉ seen := by
  induction l generalizing seen with
  | nil => cases h
  | cons head l ih =>
      rw [withNewIds] at h
      split at h
      · exact ⟨List.mem_cons_of_mem _ (ih h).1, (ih h).2⟩
      · rename_i hnew
        rcases List.mem_cons.1 h with rfl | h
        · exact ⟨List.mem_cons_self, hnew⟩
        · exact ⟨List.mem_cons_of_mem _ (ih h).1,
            fun hseen => (ih h).2 (List.mem_cons_of_mem _ hseen)⟩

/-- Every new id is represented. -/
theorem exists_mem_withNewIds {seen : List Id} {l : List (SchemaObject Id)}
    (ho : o ∈ l) (hseen : o.id ∉ seen) :
    ∃ o' ∈ withNewIds seen l, o'.id = o.id := by
  induction l generalizing seen with
  | nil => cases ho
  | cons head l ih =>
      rw [withNewIds]
      split
      · rename_i hhead
        rcases List.mem_cons.1 ho with rfl | ho
        · exact absurd hhead hseen
        · exact ih ho hseen
      · by_cases hid : head.id = o.id
        · exact ⟨head, List.mem_cons_self, hid⟩
        · rcases List.mem_cons.1 ho with rfl | ho
          · exact absurd rfl hid
          · have hnew : o.id ∉ head.id :: seen := by
              intro hmem
              rcases List.mem_cons.1 hmem with heq | hmem
              · exact hid heq.symm
              · exact hseen hmem
            obtain ⟨o', ho', heq⟩ := ih ho hnew
            exact ⟨o', List.mem_cons_of_mem _ ho', heq⟩

end SchemaService

end Tempr.Services
