import Tempr.Services.SchemaTracking

/-!
# Incremental refreshes that keep track

A splice keeps what it does not re-read and re-reads the schemas in which the
changed objects are cached. The result tracks the server if the changed objects
still are in these schemas and a re-read of one of them finds what the sweep
found there.
-/

namespace Tempr.Services.SchemaService

open Tempr.Support

variable {Id : Type} {w : World Id} {i : Nat} {scope : SchemaScope}
  {cached : SchemaSnapshot Id}

/-! ## What a splice re-reads -/

/-- `x` is in scope with another version than the cached one. -/
def World.Altered (w : World Id) (i : Nat) (scope : SchemaScope)
    (cached : SchemaSnapshot Id) (x : ServerObject) : Prop :=
  w.InScope i scope x ∧
    ∃ v, (domainKey x, v) ∈ versionsOf cached.fingerprints ∧ v ≠ x.version

theorem mem_changed_iff_altered (hcached : OneVersion cached.fingerprints)
    {k : Key} :
    k ∈ (diffFingerprints cached.fingerprints (w.sweep i scope)).changed ↔
      ∃ x, w.Altered i scope cached x ∧ domainKey x = k := by
  rw [mem_changed_iff hcached (sweptKeys_nodup w i scope)]
  constructor
  · rintro ⟨f, hf, rfl, v, hv, hne⟩
    obtain ⟨x, hx, rfl⟩ := mem_sweep_iff.1 hf
    exact ⟨x, ⟨hx, v, hv, hne⟩, rfl⟩
  · rintro ⟨x, ⟨hx, v, hv, hne⟩, rfl⟩
    exact ⟨_, mem_sweep_iff.2 ⟨x, hx, rfl⟩, rfl, v, hv, hne⟩

variable [DecidableEq Id]

/-- The object with key `k` is cached in `schema`. -/
def World.CachedIn (w : World Id) (cached : SchemaSnapshot Id) (k : Key)
    (schema : String) : Prop :=
  ∃ o ∈ cached.objects, Names w.ids w.connectionId k o ∧
    objectSchema (indexById cached.objects) o = some schema

/-- An altered object is cached in `schema`. -/
def World.Touched (w : World Id) (i : Nat) (scope : SchemaScope)
    (cached : SchemaSnapshot Id) (schema : String) : Prop :=
  ∃ x, w.Altered i scope cached x ∧ w.CachedIn cached (domainKey x) schema

/-- A sweep at instant `i` that leads to a splice. -/
structure Splicing (w : World Id) (i : Nat) (scope : SchemaScope)
    (cached : SchemaSnapshot Id) (schemas : List String) : Prop where
  tracks : Tracks w i cached
  added : (diffFingerprints cached.fingerprints (w.sweep i scope)).added = []
  touched : touchedSchemas w.ids w.connectionId cached.objects
    (diffFingerprints cached.fingerprints (w.sweep i scope)).changed
      = some schemas

/-- The cached objects that the splice keeps. -/
def World.kept (w : World Id) (i : Nat) (scope : SchemaScope)
    (cached : SchemaSnapshot Id) (schemas : List String) :
    List (SchemaObject Id) :=
  retained cached.objects
    ((diffFingerprints cached.fingerprints (w.sweep i scope)).dropped.flatMap
      (candidateIds w.ids w.connectionId)) schemas

namespace Splicing

variable {schemas : List String} (h : Splicing w i scope cached schemas)

include h

theorem recorded {x : ServerObject} (hx : w.InScope i scope x) :
    ∃ v, (domainKey x, v) ∈ versionsOf cached.fingerprints := by
  by_contra hnone
  have hadded : domainKey x ∈
      (diffFingerprints cached.fingerprints (w.sweep i scope)).added :=
    (mem_added_iff (sweptKeys_nodup w i scope)).2
      ⟨mem_sweptKeys_iff.2 ⟨x, hx, rfl⟩, fun v hv => hnone ⟨v, hv⟩⟩
  rw [h.added] at hadded
  cases hadded

/-- An object in scope is altered, or cached as the server has it. -/
theorem altered_or_current {x : ServerObject} (hx : w.InScope i scope x) :
    w.Altered i scope cached x ∨ ∃ o ∈ cached.objects,
      w.describeAt i x = some o.forgetRows := by
  obtain ⟨v, hv⟩ := h.recorded hx
  by_cases hversion : v = x.version
  · subst hversion
    exact .inr (h.tracks.current i le_rfl x hx.1 hv)
  · exact .inl ⟨hx, v, hv, hversion⟩

/-- An altered object is cached in one of the schemas. -/
theorem cachedIn_of_altered {x : ServerObject}
    (hx : w.Altered i scope cached x) :
    ∃ schema ∈ schemas, w.CachedIn cached (domainKey x) schema := by
  obtain ⟨-, hresolved, -⟩ := touchedSchemas_spec h.touched
  obtain ⟨schema, hmem, hschema⟩ := hresolved _
    ((mem_changed_iff_altered h.tracks.versions).2 ⟨x, hx, rfl⟩)
  exact ⟨schema, hmem, changedSchema_spec h.tracks.linked
    (domainKey_ne_view x) hschema⟩

/-- The schemas are those in which an altered object is cached. -/
theorem mem_schemas_iff {schema : String} :
    schema ∈ schemas ↔ w.Touched i scope cached schema := by
  obtain ⟨-, -, hfrom⟩ := touchedSchemas_spec h.touched
  constructor
  · intro hmem
    obtain ⟨k, hk, hschema⟩ := hfrom schema hmem
    obtain ⟨x, hx, rfl⟩ := (mem_changed_iff_altered h.tracks.versions).1 hk
    exact ⟨x, hx, changedSchema_spec h.tracks.linked (domainKey_ne_view x)
      hschema⟩
  · rintro ⟨x, hx, o, ho, hname, hschema⟩
    obtain ⟨schema', hmem, o', ho', hname', hschema'⟩ := h.cachedIn_of_altered hx
    obtain rfl := h.tracks.linked.unique o ho o' ho' _ hname hname'
    obtain rfl := Option.some.inj (hschema.symm.trans hschema')
    exact hmem

/-- A kept object is the database, or in scope and as the server has it. -/
theorem kept_describes {o : SchemaObject Id}
    (ho : o ∈ w.kept i scope cached schemas) :
    o = w.database ∨ ∃ x, w.InScope i scope x ∧
      w.describeAt i x = some o.forgetRows := by
  obtain ⟨hcached, hdropped, hschema⟩ := mem_retained_iff.1 ho
  rcases h.tracks.known o hcached with rfl | ⟨k, v, hk, hv⟩
  · exact .inl rfl
  · right
    have hswept : k ∈ (w.sweep i scope).map sweptKey := by
      by_contra hnot
      refine hdropped (List.mem_flatMap.2 ⟨k, ?_, hk.candidate⟩)
      exact (mem_dropped_iff h.tracks.versions (sweptKeys_nodup w i scope)).2
        ⟨⟨v, hv⟩, hnot⟩
    obtain ⟨x, hx, rfl⟩ := mem_sweptKeys_iff.1 hswept
    rcases h.altered_or_current hx with haltered | ⟨o', ho', hdescribe⟩
    · obtain ⟨schema, hmem, o', ho', hname, hin⟩ := h.cachedIn_of_altered haltered
      obtain rfl := h.tracks.linked.unique o hcached o' ho' _ hk hname
      exact absurd hmem (hschema schema hin)
    · obtain rfl := h.tracks.linked.unique o hcached o' ho' _ hk
        (names_of_describeAt hdescribe)
      exact ⟨x, hx, hdescribe⟩

/-- The database object is kept. -/
theorem database_kept : w.database ∈ w.kept i scope cached schemas := by
  refine mem_retained_iff.2 ⟨h.tracks.database, ?_, ?_⟩
  · intro hdropped
    obtain ⟨k, hk, hid⟩ := List.mem_flatMap.1 hdropped
    obtain ⟨⟨v, hv⟩, -⟩ :=
      (mem_dropped_iff h.tracks.versions (sweptKeys_nodup w i scope)).1 hk
    obtain ⟨hview, hdatabase⟩ := h.tracks.kinds k v hv
    obtain rfl := names_databaseObject.of_candidate hview hid
    exact hdatabase rfl
  · intro schema hschema
    cases hschema

/-- An object that is cached as the server has it is cached in its schema,
unless its relation is altered. -/
theorem schema_of_current {x : ServerObject} (hx : w.InScope i scope x)
    {o : SchemaObject Id} (ho : o ∈ cached.objects)
    (hdescribe : w.describeAt i x = some o.forgetRows) :
    objectSchema (indexById cached.objects) o = (w.catalog i).schemaOf x ∨
    ∃ y schema, w.Altered i scope cached y ∧
      (w.catalog i).schemaOf y = (w.catalog i).schemaOf x ∧
      objectSchema (indexById cached.objects) o = some schema ∧
      schema ∈ schemas := by
  obtain ⟨o', ho', heq⟩ := describeAt_eq_some_iff.1 hdescribe
  have hparents : o.parentId = o'.parentId := by
    rw [← SchemaObject.forgetRows_parentId o, ← heq,
      SchemaObject.forgetRows_parentId]
  have hown : o.ownSchema = o'.ownSchema := by
    rw [← SchemaObject.forgetRows_ownSchema o, ← heq,
      SchemaObject.forgetRows_ownSchema]
  cases hn : x.definition.parent with
  | none =>
      obtain ⟨hroot, hschema⟩ := describe_of_no_parent hn ho'
      left
      rw [objectSchema_of_no_parent _ (hparents.trans hroot), hown, hschema]
  | some n =>
      obtain ⟨y, P', hy, hrelation, hP', hparent, -, hschema⟩ :=
        describe_of_parent hx.1 hn ho'
      obtain ⟨P, hP, hid, hroot, hsome⟩ :=
        h.tracks.linked.parent o ho P'.id (hparents.trans hparent)
      have hP_schema :
          objectSchema (indexById cached.objects) o = P.ownSchema :=
        objectSchema_of_parent (hparents.trans (hparent.trans (by rw [hid])))
          (lookup_indexById h.tracks.linked hP) hroot
      have hyscope : w.InScope i scope y :=
        ⟨hy, by rw [← Catalog.inScope_child hn hrelation, hx.2]⟩
      rcases h.altered_or_current hyscope with haltered | ⟨Q, hQ, hcurrent⟩
      · right
        obtain ⟨schema, hPs⟩ := Option.isSome_iff_exists.1 hsome
        refine ⟨y, schema, haltered, (Catalog.schemaOf_child hn hrelation).symm,
          hP_schema.trans hPs, h.mem_schemas_iff.2 ⟨y, haltered, P, hP, ?_, ?_⟩⟩
        · obtain ⟨k, hk⟩ := h.tracks.linked.named P hP
          obtain rfl := hk.eq_of_id (describe_names hP') hid
          exact hk
        · rw [objectSchema_of_no_parent _ hroot, hPs]
      · left
        obtain ⟨Q', hQ', hsame⟩ := describeAt_eq_some_iff.1 hcurrent
        obtain rfl := Option.some.inj (hQ'.symm.trans hP')
        have hQid : Q.id = Q'.id := by
          rw [← SchemaObject.forgetRows_id Q, ← hsame, SchemaObject.forgetRows_id]
        obtain rfl := h.tracks.linked.eq_of_id hQ hP (hQid.trans hid.symm)
        rw [hP_schema, ← hschema, ← SchemaObject.forgetRows_ownSchema Q, ← hsame,
          SchemaObject.forgetRows_ownSchema]

/-- Nothing is kept of an object that is in a re-read schema. -/
theorem not_kept_of_mem_schemas {x : ServerObject} (hx : w.InScope i scope x)
    {schema : String} (hschema : (w.catalog i).schemaOf x = some schema)
    (hmem : schema ∈ schemas) {o : SchemaObject Id}
    (ho : o ∈ w.kept i scope cached schemas) :
    ¬ Names w.ids w.connectionId (domainKey x) o := by
  intro hname
  obtain ⟨hcached, -, hout⟩ := mem_retained_iff.1 ho
  rcases h.kept_describes ho with rfl | ⟨x', hx', hdescribe⟩
  · exact not_names_database hname
  · have hkey := hname.eq (names_of_describeAt hdescribe)
    obtain rfl := eq_of_domainKey hx.1 hx'.1 hkey
    rcases h.schema_of_current hx hcached hdescribe with
      hsame | ⟨-, other, -, -, hother, hothermem⟩
    · exact hout schema (hsame.trans hschema) hmem
    · exact hout other hother hothermem

end Splicing

/-! ## Re-reads -/

/-- The reads of the given schemas, from instant `j` on. -/
def World.rereads (w : World Id) : Nat → List String →
    List (Catalog × SchemaScope)
  | _, [] => []
  | j, schema :: schemas =>
      (w.catalog j, .schema schema) :: w.rereads (j + 1) schemas

omit [DecidableEq Id] in
theorem mem_rereads_iff {j : Nat} {schemas : List String}
    {r : Catalog × SchemaScope} :
    r ∈ w.rereads j schemas ↔ ∃ a schema, schemas[a]? = some schema ∧
      r = (w.catalog (j + a), .schema schema) := by
  induction schemas generalizing j with
  | nil => simp [World.rereads]
  | cons schema schemas ih =>
      rw [World.rereads, List.mem_cons, ih]
      constructor
      · rintro (rfl | ⟨a, other, ha, rfl⟩)
        · exact ⟨0, schema, rfl, rfl⟩
        · exact ⟨a + 1, other, by simpa using ha, by rw [Nat.add_right_comm]; rfl⟩
      · rintro ⟨a, other, ha, rfl⟩
        cases a with
        | zero =>
            obtain rfl : schema = other := by simpa using ha
            exact .inl rfl
        | succ a =>
            exact .inr ⟨a, other, by simpa using ha,
              by rw [Nat.add_right_comm]; rfl⟩

omit [DecidableEq Id] in
theorem call_eq_ok {α : Type} {j : Nat} {reply : Catalog → α} {a : α}
    (h : w.call j reply = .ok a) : reply (w.catalog j) = a := by
  unfold World.call at h
  cases hfault : w.fault j with
  | some error => simp [hfault] at h
  | none => simpa [hfault] using h

omit [DecidableEq Id] in
theorem withMetadataConnection_eq_ok {α : Type} {j : Nat}
    {f : Except DriverError α} {a : α}
    (h : w.withMetadataConnection j f = .ok a) : f = .ok a := by
  unfold World.withMetadataConnection at h
  cases hrefusal : w.refusal j with
  | some error => simp [hrefusal] at h
  | none => cases f <;> simp_all

omit [DecidableEq Id] in
theorem reread_eq_ok {j : Nat} {schemas : List String}
    {entries : List SchemaSnapshotEntry}
    (h : reread w j schemas = .ok entries) :
    entries = readEntries w.session (w.rereads j schemas) := by
  induction schemas generalizing j entries with
  | nil =>
      obtain rfl : [] = entries := by simpa [reread] using h
      rfl
  | cons schema schemas ih =>
      rw [reread] at h
      cases hpart : w.withMetadataConnection j
          (w.snapshotSchema j (.schema schema)) with
      | error error => simp [hpart] at h
      | ok part =>
          cases hrest : reread w (j + 1) schemas with
          | error error => simp [hpart, hrest] at h
          | ok rest =>
              obtain rfl : part ++ rest = entries := by
                simpa [hpart, hrest] using h
              rw [ih hrest, ← call_eq_ok (withMetadataConnection_eq_ok hpart)]
              simp [World.rereads, readEntries]

/-- The `a`-th re-read after a sweep at instant `i`, of `schema`, finds `y`. -/
def World.Finds (w : World Id) (i : Nat) (schemas : List String) (a : Nat)
    (schema : String) (y : ServerObject) : Prop :=
  schemas[a]? = some schema ∧ y ∈ (w.catalog (i + 1 + a)).objects ∧
    (w.catalog (i + 1 + a)).schemaOf y = some schema

/-- The objects of the re-reads after a sweep at instant `i`. -/
def World.refreshed (w : World Id) (i : Nat) (schemas : List String) :
    List (SchemaObject Id) :=
  objectsFromEntries w.ids w.connectionId
    (readEntries w.session (w.rereads (i + 1) schemas))

omit [DecidableEq Id] in
/-- Re-reads of different schemas give no name to different relations. -/
theorem compatible_rereads {j : Nat} {schemas : List String}
    (hnodup : schemas.Nodup) :
    Compatible w.session (w.rereads j schemas) := by
  intro r hr q hq x hx y hy hxscope hyscope hname hsame
  obtain ⟨a, schema, ha, rfl⟩ := mem_rereads_iff.1 hr
  obtain ⟨b, other, hb, rfl⟩ := mem_rereads_iff.1 hq
  have hschema := Catalog.inScope_schema_iff.1 hxscope
  have hother := Catalog.inScope_schema_iff.1 hyscope
  rw [Catalog.schemaOf_relation hname, hsame,
    ← Catalog.schemaOf_relation (hsame ▸ hname), hother] at hschema
  obtain rfl := Option.some.inj hschema
  obtain ⟨halt, -⟩ := List.getElem?_eq_some_iff.1 ha
  obtain rfl := (List.getElem?_inj halt hnodup).1 (ha.trans hb.symm)
  obtain rfl := Catalog.relationName_inj _ x hx y hy hname hsame
  exact ⟨rfl, rfl⟩

omit [DecidableEq Id] in
theorem mem_refreshed_iff {schemas : List String} (hnodup : schemas.Nodup)
    {o : SchemaObject Id} :
    o ∈ w.refreshed i schemas ↔ (schemas ≠ [] ∧ o = w.database) ∨
      ∃ a schema y, w.Finds i schemas a schema y ∧
        (w.catalog (i + 1 + a)).describe w.ids w.connectionId y = some o := by
  rw [World.refreshed, mem_objectsFromEntries_iff (compatible_rereads hnodup)]
  apply or_congr
  · cases schemas <;> simp [World.rereads, World.database]
  · constructor
    · rintro ⟨r, hr, y, hy, hscope, ho⟩
      obtain ⟨a, schema, ha, rfl⟩ := mem_rereads_iff.1 hr
      exact ⟨a, schema, y, ⟨ha, hy, Catalog.inScope_schema_iff.1 hscope⟩, ho⟩
    · rintro ⟨a, schema, y, ⟨ha, hy, hschema⟩, ho⟩
      exact ⟨_, mem_rereads_iff.2 ⟨a, schema, ha, rfl⟩, y, hy,
        Catalog.inScope_schema_iff.2 hschema, ho⟩

/-! ## The splice -/

/-- The objects of the spliced snapshot. -/
def World.spliced (w : World Id) (i : Nat) (scope : SchemaScope)
    (cached : SchemaSnapshot Id) (schemas : List String) :
    List (SchemaObject Id) :=
  spliceObjects cached.objects (w.refreshed i schemas)
    ((diffFingerprints cached.fingerprints (w.sweep i scope)).dropped.flatMap
      (candidateIds w.ids w.connectionId)) schemas

theorem mem_spliced {schemas : List String} {o : SchemaObject Id} :
    o ∈ w.spliced i scope cached schemas ↔
      o ∈ w.kept i scope cached schemas ∨
      o ∈ withNewIds ((w.kept i scope cached schemas).map SchemaObject.id)
        (w.refreshed i schemas) :=
  List.mem_append

/-- The re-reads find only what the sweep found in the same schema. -/
def World.FindsSwept (w : World Id) (i : Nat) (scope : SchemaScope)
    (schemas : List String) : Prop :=
  ∀ a schema y, w.Finds i schemas a schema y →
    ∃ x, w.InScope i scope x ∧ x.key = y.key ∧
      (w.catalog i).schemaOf x = some schema

/-- What the sweep found in a schema is in no other when the schema is
re-read. -/
def World.StaysPut (w : World Id) (i : Nat) (scope : SchemaScope)
    (schemas : List String) : Prop :=
  ∀ a schema x, schemas[a]? = some schema → w.InScope i scope x →
    (w.catalog i).schemaOf x = some schema →
    ∀ y ∈ (w.catalog (i + 1 + a)).objects, y.key = x.key →
      (w.catalog (i + 1 + a)).schemaOf y = some schema

/-- Every altered object is in a schema that the splice re-reads. -/
def World.AlteredReread (w : World Id) (i : Nat) (scope : SchemaScope)
    (cached : SchemaSnapshot Id) (schemas : List String) : Prop :=
  ∀ x, w.Altered i scope cached x →
    ∃ schema ∈ schemas, (w.catalog i).schemaOf x = some schema

namespace Splicing

variable {schemas : List String} (h : Splicing w i scope cached schemas)

include h

theorem nodup : schemas.Nodup :=
  (touchedSchemas_spec h.touched).1

/-- An object in scope is kept as the server has it, or in a re-read schema. -/
theorem kept_or_reread (haltered : w.AlteredReread i scope cached schemas)
    {x : ServerObject} (hx : w.InScope i scope x) :
    (∃ o ∈ w.kept i scope cached schemas,
      w.describeAt i x = some o.forgetRows) ∨
    ∃ schema ∈ schemas, (w.catalog i).schemaOf x = some schema := by
  rcases h.altered_or_current hx with halt | ⟨o, ho, hdescribe⟩
  · exact .inr (haltered x halt)
  · by_cases hkept : o ∈ w.kept i scope cached schemas
    · exact .inl ⟨o, hkept, hdescribe⟩
    · right
      rcases h.schema_of_current hx ho hdescribe with
        hsame | ⟨y, -, hy, hschema, -, -⟩
      · by_contra hout
        refine hkept (mem_retained_iff.2 ⟨ho, ?_, ?_⟩)
        · intro hdropped
          obtain ⟨k, hk, hid⟩ := List.mem_flatMap.1 hdropped
          obtain ⟨⟨v, hv⟩, hnot⟩ := (mem_dropped_iff h.tracks.versions
            (sweptKeys_nodup w i scope)).1 hk
          obtain rfl := (names_of_describeAt hdescribe).of_candidate
            (h.tracks.kinds k v hv).1 hid
          exact hnot (mem_sweptKeys_iff.2 ⟨x, hx, rfl⟩)
        · intro schema hschema hmem
          exact hout ⟨schema, hmem, hsame ▸ hschema⟩
      · rw [← hschema]
        exact haltered y hy

/-- The relation of a kept child is kept. -/
theorem exists_kept_parent {o : SchemaObject Id}
    (ho : o ∈ w.kept i scope cached schemas) {p : Id}
    (hp : o.parentId = some p) :
    ∃ P ∈ w.kept i scope cached schemas, P.id = p ∧ P.parentId = none ∧
      P.ownSchema.isSome = true := by
  obtain ⟨hcached, -, hout⟩ := mem_retained_iff.1 ho
  obtain ⟨P, hP, rfl, hroot, hsome⟩ := h.tracks.linked.parent o hcached p hp
  have hschema : objectSchema (indexById cached.objects) o = P.ownSchema :=
    objectSchema_of_parent hp (lookup_indexById h.tracks.linked hP) hroot
  refine ⟨P, mem_retained_iff.2 ⟨hP, ?_, ?_⟩, rfl, hroot, hsome⟩
  · intro hdropped
    -- the relation of what is in scope is in scope, and has been swept
    rcases h.kept_describes ho with rfl | ⟨x, hx, hdescribe⟩
    · cases hp
    · obtain ⟨o', ho', heq⟩ := describeAt_eq_some_iff.1 hdescribe
      have hp' : o'.parentId = some P.id := by
        rw [← hp, ← SchemaObject.forgetRows_parentId o', heq,
          SchemaObject.forgetRows_parentId]
      cases hn : x.definition.parent with
      | none =>
          rw [(describe_of_no_parent hn ho').1] at hp'
          cases hp'
      | some n =>
          obtain ⟨y, Q, hy, hrelation, hQ, hparent, -, -⟩ :=
            describe_of_parent hx.1 hn ho'
          have hid : Q.id = P.id := Option.some.inj (hparent.symm.trans hp')
          obtain ⟨k, hk, hcandidate⟩ := List.mem_flatMap.1 hdropped
          obtain ⟨⟨v, hv⟩, hnot⟩ := (mem_dropped_iff h.tracks.versions
            (sweptKeys_nodup w i scope)).1 hk
          obtain rfl := (describe_names hQ).of_candidate
            (h.tracks.kinds k v hv).1 (hid ▸ hcandidate)
          exact hnot (mem_sweptKeys_iff.2 ⟨y, ⟨hy,
            by rw [← Catalog.inScope_child hn hrelation, hx.2]⟩, rfl⟩)
  · intro schema hPschema
    rw [objectSchema_of_no_parent _ hroot] at hPschema
    exact hout schema (hschema.trans hPschema)

variable (hswept : w.FindsSwept i scope schemas)

include hswept

/-- A key has one object among the re-read ones. -/
theorem refreshed_unique {o o' : SchemaObject Id}
    (ho : o ∈ w.refreshed i schemas) (ho' : o' ∈ w.refreshed i schemas)
    {k : Key} (hk : Names w.ids w.connectionId k o)
    (hk' : Names w.ids w.connectionId k o') : o = o' := by
  rcases (mem_refreshed_iff h.nodup).1 ho with
    ⟨-, rfl⟩ | ⟨a, schema, y, hy, hdescribe⟩ <;>
  rcases (mem_refreshed_iff h.nodup).1 ho' with
    ⟨-, rfl⟩ | ⟨a', schema', y', hy', hdescribe'⟩
  · rfl
  · obtain rfl := hk'.eq (describe_names hdescribe')
    exact absurd hk not_names_database
  · obtain rfl := hk.eq (describe_names hdescribe)
    exact absurd hk' not_names_database
  · obtain rfl := hk.eq (describe_names hdescribe)
    have hkey := domainKey_inj (hk'.eq (describe_names hdescribe'))
    obtain ⟨x, hx, hxkey, hxschema⟩ := hswept a schema y hy
    obtain ⟨x', hx', hxkey', hxschema'⟩ := hswept a' schema' y' hy'
    obtain rfl := Catalog.key_inj hx.1 hx'.1
      (hxkey.trans (hkey.trans hxkey'.symm))
    obtain rfl := Option.some.inj (hxschema.symm.trans hxschema')
    obtain ⟨hlt, -⟩ := List.getElem?_eq_some_iff.1 hy.1
    obtain rfl := (List.getElem?_inj hlt h.nodup).1 (hy.1.trans hy'.1.symm)
    obtain rfl := Catalog.key_inj hy.2.1 hy'.2.1 hkey
    exact Option.some.inj (hdescribe.symm.trans hdescribe')

/-- Nothing is kept of an object that is re-read. -/
theorem not_kept_of_finds {a : Nat} {schema : String} {y : ServerObject}
    (hy : w.Finds i schemas a schema y) {o : SchemaObject Id}
    (ho : o ∈ w.kept i scope cached schemas) :
    ¬ Names w.ids w.connectionId (domainKey y) o := by
  obtain ⟨x, hx, hkey, hschema⟩ := hswept a schema y hy
  rw [← domainKey_of_key hkey]
  exact h.not_kept_of_mem_schemas hx hschema
    (List.mem_of_getElem? hy.1) ho

/-- The splice has the kept objects and the re-read ones. -/
theorem mem_spliced_iff {o : SchemaObject Id} :
    o ∈ w.spliced i scope cached schemas ↔
      o ∈ w.kept i scope cached schemas ∨
      ∃ a schema y, w.Finds i schemas a schema y ∧
        (w.catalog (i + 1 + a)).describe w.ids w.connectionId y = some o := by
  rw [mem_spliced]
  constructor
  · rintro (ho | ho)
    · exact .inl ho
    · rcases (mem_refreshed_iff h.nodup).1 (mem_withNewIds ho).1 with
        ⟨-, rfl⟩ | hfound
      · exact .inl h.database_kept
      · exact .inr hfound
  · rintro (ho | ⟨a, schema, y, hy, ho⟩)
    · exact .inl ho
    · right
      have hrefreshed : o ∈ w.refreshed i schemas :=
        (mem_refreshed_iff h.nodup).2 (.inr ⟨a, schema, y, hy, ho⟩)
      have hnew : o.id ∉
          (w.kept i scope cached schemas).map SchemaObject.id := by
        intro hid
        obtain ⟨p, hp, hpid⟩ := List.mem_map.1 hid
        obtain ⟨k, hk⟩ := h.tracks.linked.named p (mem_retained_iff.1 hp).1
        obtain rfl := hk.eq_of_id (describe_names ho) hpid
        exact h.not_kept_of_finds hswept hy hp hk
      obtain ⟨p, hp, hpid⟩ := exists_mem_withNewIds hrefreshed hnew
      have hprefreshed := (mem_withNewIds hp).1
      obtain ⟨k, hk⟩ : ∃ k, Names w.ids w.connectionId k p := by
        rcases (mem_refreshed_iff h.nodup).1 hprefreshed with
          ⟨-, rfl⟩ | ⟨b, other, z, -, hz⟩
        · exact ⟨_, names_databaseObject⟩
        · exact ⟨_, describe_names hz⟩
      obtain rfl := hk.eq_of_id (describe_names ho) hpid
      obtain rfl := h.refreshed_unique hswept hprefreshed hrefreshed hk
        (describe_names ho)
      exact hp

/-- What the splice makes is linked. -/
theorem linked_spliced :
    Linked w.ids w.connectionId (w.spliced i scope cached schemas) := by
  constructor
  · intro o ho
    rcases (h.mem_spliced_iff hswept).1 ho with hkept | ⟨a, schema, y, -, hy⟩
    · exact h.tracks.linked.named o (mem_retained_iff.1 hkept).1
    · exact ⟨_, describe_names hy⟩
  · intro o ho o' ho' k hk hk'
    rcases (h.mem_spliced_iff hswept).1 ho with
      hkept | ⟨a, schema, y, hy, hdescribe⟩ <;>
    rcases (h.mem_spliced_iff hswept).1 ho' with
      hkept' | ⟨a', schema', y', hy', hdescribe'⟩
    · exact h.tracks.linked.unique o (mem_retained_iff.1 hkept).1 o'
        (mem_retained_iff.1 hkept').1 k hk hk'
    · obtain rfl := hk'.eq (describe_names hdescribe')
      exact absurd hk (h.not_kept_of_finds hswept hy' hkept)
    · obtain rfl := hk.eq (describe_names hdescribe)
      exact absurd hk' (h.not_kept_of_finds hswept hy hkept')
    · exact h.refreshed_unique hswept
        ((mem_refreshed_iff h.nodup).2 (.inr ⟨a, schema, y, hy, hdescribe⟩))
        ((mem_refreshed_iff h.nodup).2 (.inr ⟨a', schema', y', hy', hdescribe'⟩))
        hk hk'
  · intro o ho p hp
    rcases (h.mem_spliced_iff hswept).1 ho with
      hkept | ⟨a, schema, y, hy, hdescribe⟩
    · obtain ⟨P, hP, hid⟩ := h.exists_kept_parent hkept hp
      exact ⟨P, (h.mem_spliced_iff hswept).2 (.inl hP), hid⟩
    · cases hn : y.definition.parent with
      | none =>
          rw [(describe_of_no_parent hn hdescribe).1] at hp
          cases hp
      | some n =>
          obtain ⟨z, P, hz, hrelation, hP, hparent, hroot, hschema⟩ :=
            describe_of_parent hy.2.1 hn hdescribe
          obtain rfl : P.id = p := Option.some.inj (hparent.symm.trans hp)
          refine ⟨P, (h.mem_spliced_iff hswept).2
            (.inr ⟨a, schema, z, ⟨hy.1, hz, ?_⟩, hP⟩), rfl, hroot, ?_⟩
          · rw [← Catalog.schemaOf_child hn hrelation, hy.2.2]
          · rw [hschema, hy.2.2]
            rfl

/-- A splice of a snapshot that tracks the server tracks it, after the last
re-read. -/
theorem tracks_spliced (hversions : w.VersionsTrack)
    (haltered : w.AlteredReread i scope cached schemas)
    (hstays : w.StaysPut i scope schemas) {snapshot : SchemaSnapshot Id}
    (hobjects : snapshot.objects = w.spliced i scope cached schemas)
    (hfingerprints : snapshot.fingerprints
      = (w.sweep i scope).map fingerprintRecord) :
    Tracks w (i + 1 + schemas.length) snapshot := by
  refine ⟨?_, ?_, ?_, ?_, ?_, ?_, ?_⟩
  · rw [hobjects]
    exact h.linked_spliced hswept
  · rw [hobjects]
    exact (h.mem_spliced_iff hswept).2 (.inl h.database_kept)
  · rw [hfingerprints]
    exact oneVersion_sweep w i scope
  · intro key v hv
    rw [hfingerprints] at hv
    obtain ⟨x, -, rfl, -⟩ := mem_versionsOf_sweep_iff.1 hv
    exact ⟨domainKey_ne_view x, domainKey_ne_database x⟩
  · intro o ho
    rw [hfingerprints]
    rw [hobjects] at ho
    rcases (h.mem_spliced_iff hswept).1 ho with
      hkept | ⟨a, schema, y, hy, hdescribe⟩
    · rcases h.kept_describes hkept with rfl | ⟨x, hx, hdescribe⟩
      · exact .inl rfl
      · exact .inr ⟨_, _, names_of_describeAt hdescribe,
          mem_versionsOf_sweep_iff.2 ⟨x, hx, rfl, rfl⟩⟩
    · obtain ⟨x, hx, hkey, -⟩ := hswept a schema y hy
      exact .inr ⟨_, _, describe_names hdescribe,
        mem_versionsOf_sweep_iff.2 ⟨x, hx, domainKey_of_key hkey, rfl⟩⟩
  · intro j hj x hx hv
    rw [hfingerprints] at hv
    obtain ⟨x₀, hx₀, hkey, hversion⟩ := mem_versionsOf_sweep_iff.1 hv
    have hkey := domainKey_inj hkey
    rw [hobjects]
    rcases h.kept_or_reread haltered hx₀ with
      ⟨o, ho, hdescribe⟩ | ⟨schema, hmem, hschema⟩
    · obtain ⟨-, -, -, -, -, hsame⟩ :=
        hversions i i j le_rfl (by omega) x₀ hx₀.1 x hx hkey hversion
      exact ⟨o, (h.mem_spliced_iff hswept).2 (.inl ho), hsame.trans hdescribe⟩
    · obtain ⟨a, ha⟩ := List.mem_iff_getElem?.1 hmem
      obtain ⟨hlt, -⟩ := List.getElem?_eq_some_iff.1 ha
      obtain ⟨y, hy, hykey, -, hydescribe, hsame⟩ := hversions i (i + 1 + a) j
        (by omega) (by omega) x₀ hx₀.1 x hx hkey hversion
      have hyschema := hstays a schema x₀ ha hx₀ hschema y hy hykey
      obtain ⟨o, ho⟩ := exists_describe w.ids w.connectionId hy
      refine ⟨o, (h.mem_spliced_iff hswept).2
        (.inr ⟨a, schema, y, ⟨ha, hy, hyschema⟩, ho⟩), ?_⟩
      rw [hsame, ← hydescribe]
      exact describeAt_eq_some_iff.2 ⟨o, ho, rfl⟩
  · intro o ho
    rw [hobjects] at ho
    rcases (h.mem_spliced_iff hswept).1 ho with
      hkept | ⟨a, schema, y, hy, hdescribe⟩
    · rcases h.tracks.authentic o (mem_retained_iff.1 hkept).1 with
        rfl | ⟨j, hj, hx⟩
      · exact .inl rfl
      · exact .inr ⟨j, by omega, hx⟩
    · obtain ⟨hlt, -⟩ := List.getElem?_eq_some_iff.1 hy.1
      exact .inr ⟨i + 1 + a, by omega, y, hy.2.1, hdescribe⟩

end Splicing

/-! ## Splices with the server at rest -/

/-- Every altered object is in a schema in which an altered object is cached, and
every object of such a schema is in scope. -/
structure World.Covers (w : World Id) (i : Nat) (scope : SchemaScope)
    (cached : SchemaSnapshot Id) : Prop where
  altered : ∀ x, w.Altered i scope cached x → ∃ schema,
    w.Touched i scope cached schema ∧ (w.catalog i).schemaOf x = some schema
  swept : ∀ y ∈ (w.catalog i).objects, ∀ schema,
    w.Touched i scope cached schema → (w.catalog i).schemaOf y = some schema →
      w.InScope i scope y

/-- The server does not change from instant `i` to instant `j`. -/
def World.AtRest (w : World Id) (i j : Nat) : Prop :=
  ∀ k, i ≤ k → k ≤ j → w.catalog k = w.catalog i

namespace World.AtRest

variable {schemas : List String}

omit [DecidableEq Id]

theorem finds (h : w.AtRest i (i + 1 + schemas.length)) {a : Nat}
    {schema : String} {y : ServerObject} :
    w.Finds i schemas a schema y ↔ schemas[a]? = some schema ∧
      y ∈ (w.catalog i).objects ∧ (w.catalog i).schemaOf y = some schema := by
  rw [World.Finds]
  refine and_congr_right fun ha => ?_
  obtain ⟨hlt, -⟩ := List.getElem?_eq_some_iff.1 ha
  rw [h (i + 1 + a) (by omega) (by omega)]

theorem staysPut (h : w.AtRest i (i + 1 + schemas.length)) :
    w.StaysPut i scope schemas := by
  intro a schema x ha hx hschema y hy hkey
  obtain ⟨hlt, -⟩ := List.getElem?_eq_some_iff.1 ha
  rw [h (i + 1 + a) (by omega) (by omega)] at hy ⊢
  rw [Catalog.key_inj hy hx.1 hkey, hschema]

theorem sweep {j : Nat} (h : w.AtRest i j) (hij : i ≤ j) :
    w.sweep j scope = w.sweep i scope := by
  rw [World.sweep, World.sweep, h j hij le_rfl]

theorem introspect {j : Nat} (h : w.AtRest i j) (hij : i ≤ j) :
    w.introspect j scope = w.introspect i scope := by
  rw [World.introspect, World.introspect, h j hij le_rfl]

theorem mono {j k : Nat} (h : w.AtRest i k) (hjk : j ≤ k) : w.AtRest i j :=
  fun n hn hnj => h n hn (hnj.trans hjk)

end World.AtRest

namespace Splicing

variable {schemas : List String} (h : Splicing w i scope cached schemas)
  (hrest : w.AtRest i (i + 1 + schemas.length))

include h

theorem alteredReread (hcovers : w.Covers i scope cached) :
    w.AlteredReread i scope cached schemas := by
  intro x hx
  obtain ⟨schema, htouched, hschema⟩ := hcovers.altered x hx
  exact ⟨schema, h.mem_schemas_iff.2 htouched, hschema⟩

include hrest

theorem findsSwept (hcovers : w.Covers i scope cached) :
    w.FindsSwept i scope schemas := by
  intro a schema y hy
  obtain ⟨ha, hmem, hschema⟩ := (hrest.finds).1 hy
  have htouched := h.mem_schemas_iff.1 (List.mem_of_getElem? ha)
  exact ⟨y, hcovers.swept y hmem schema htouched hschema, rfl, hschema⟩

/-- A splice that makes what a full introspection would read covers what has
changed. -/
theorem covers_of_sameObjects (hsame : SameObjects
    (w.spliced i scope cached schemas) (w.introspect i scope)) :
    w.Covers i scope cached := by
  constructor
  · intro x hx
    obtain ⟨o, ho⟩ := exists_describe w.ids w.connectionId hx.1.1
    obtain ⟨p, hp, heq⟩ := List.mem_map.1 ((hsame o.forgetRows).2
      (List.mem_map_of_mem (mem_introspect_iff.2 (.inr ⟨x, hx.1, ho⟩))))
    have hname := (describe_names ho).of_forgetRows heq.symm
    rcases mem_spliced.1 hp with hkept | hnew
    · obtain ⟨hcached, -, hout⟩ := mem_retained_iff.1 hkept
      obtain ⟨schema, hmem, q, hq, hqname, hschema⟩ := h.cachedIn_of_altered hx
      obtain rfl := h.tracks.linked.unique p hcached q hq _ hname hqname
      exact absurd hmem (hout schema hschema)
    · rcases (mem_refreshed_iff h.nodup).1 (mem_withNewIds hnew).1 with
        ⟨-, rfl⟩ | ⟨a, schema, y, hy, hdescribe⟩
      · exact absurd hname not_names_database
      · obtain ⟨ha, hmem, hschema⟩ := (hrest.finds).1 hy
        obtain rfl := eq_of_domainKey hx.1.1 hmem
          (hname.eq (describe_names hdescribe))
        exact ⟨schema, h.mem_schemas_iff.1 (List.mem_of_getElem? ha), hschema⟩
  · intro y hy schema htouched hschema
    obtain ⟨a, ha⟩ := List.mem_iff_getElem?.1 (h.mem_schemas_iff.2 htouched)
    obtain ⟨hlt, -⟩ := List.getElem?_eq_some_iff.1 ha
    obtain ⟨o, ho⟩ := exists_describe w.ids w.connectionId hy
    have hrefreshed : o ∈ w.refreshed i schemas := by
      refine (mem_refreshed_iff h.nodup).2 (.inr ⟨a, schema, y,
        (hrest.finds).2 ⟨ha, hy, hschema⟩, ?_⟩)
      rw [hrest (i + 1 + a) (by omega) (by omega), ho]
    -- whichever object has its id in the splice, it is one in scope
    obtain ⟨p, hp, hid⟩ : ∃ p ∈ w.spliced i scope cached schemas,
        p.id = o.id := by
      by_cases hnew : o.id ∈
          (w.kept i scope cached schemas).map SchemaObject.id
      · obtain ⟨p, hp, hid⟩ := List.mem_map.1 hnew
        exact ⟨p, mem_spliced.2 (.inl hp), hid⟩
      · obtain ⟨p, hp, hid⟩ := exists_mem_withNewIds hrefreshed hnew
        exact ⟨p, mem_spliced.2 (.inr hp), hid⟩
    obtain ⟨q, hq, heq⟩ :=
      List.mem_map.1 ((hsame p.forgetRows).1 (List.mem_map_of_mem hp))
    have hqid : q.id = o.id := by
      rw [← hid, ← SchemaObject.forgetRows_id q, heq, SchemaObject.forgetRows_id]
    rcases mem_introspect_iff.1 hq with rfl | ⟨x, hx, hdescribe⟩
    · have hkey := names_databaseObject.eq_of_id (describe_names ho) hqid
      exact absurd (congrArg Prod.fst hkey.symm) (domainKey_ne_database y)
    · have hkey := (describe_names hdescribe).eq_of_id (describe_names ho) hqid
      obtain rfl := eq_of_domainKey hx.1 hy hkey
      exact hx

end Splicing

end Tempr.Services.SchemaService
