import Tempr.Services.SchemaSplice

/-!
# Snapshots that track the server

A snapshot tracks the server when an object whose fingerprint has not changed
since the snapshot is in it as the server has it, and nothing else is in it but
objects whose disappearance a sweep would show. A full introspection makes such a
snapshot if its sweep sees the objects it has read; a splice keeps it so if the
changed objects are re-read where they are, nothing moves while it reads, and
everything re-read has been swept.
-/

namespace Tempr.Services.SchemaService

open Tempr.Support

variable {Id : Type}

/-! ## Versions -/

/-- The domain object of a server object at instant `j`, row counts aside. -/
def World.describeAt (w : World Id) (j : Nat) (x : ServerObject) :
    Option (SchemaObject Id) :=
  ((w.catalog j).describe w.ids w.connectionId x).map SchemaObject.forgetRows

/-- A version is never used again: an object that has the same version at two
instants is there, unchanged, at all instants between them. -/
def World.VersionsTrack (w : World Id) : Prop :=
  ∀ i j k, i ≤ j → j ≤ k → ∀ x ∈ (w.catalog i).objects,
    ∀ z ∈ (w.catalog k).objects, x.key = z.key → x.version = z.version →
      ∃ y ∈ (w.catalog j).objects, y.key = x.key ∧ y.version = x.version ∧
        w.describeAt j y = w.describeAt i x ∧
        w.describeAt k z = w.describeAt i x

/-- The fingerprints of a scope at instant `i`. -/
def World.sweep (w : World Id) (i : Nat) (scope : SchemaScope) :
    List SchemaFingerprint :=
  (w.catalog i).schemaFingerprints w.session scope

/-- The objects of a scope at instant `i`. -/
def World.InScope (w : World Id) (i : Nat) (scope : SchemaScope)
    (x : ServerObject) : Prop :=
  x ∈ (w.catalog i).objects ∧ (w.catalog i).inScope w.session scope x = true

/-- The versions recorded for the keys. -/
def versionsOf (fingerprints : List SchemaFingerprintRecord) :
    List (Key × Nat) :=
  fingerprints.map recordEntry

variable {w : World Id} {i : Nat} {scope : SchemaScope}

theorem mem_sweep_iff {f : SchemaFingerprint} :
    f ∈ w.sweep i scope ↔ ∃ x, w.InScope i scope x ∧ x.fingerprint = f := by
  simp [World.sweep, Catalog.schemaFingerprints, World.InScope]

theorem mem_sweptKeys_iff {k : Key} :
    k ∈ (w.sweep i scope).map sweptKey ↔
      ∃ x, w.InScope i scope x ∧ domainKey x = k := by
  simp only [List.mem_map, mem_sweep_iff]
  constructor
  · rintro ⟨f, ⟨x, hx, rfl⟩, rfl⟩
    exact ⟨x, hx, rfl⟩
  · rintro ⟨x, hx, rfl⟩
    exact ⟨_, ⟨x, hx, rfl⟩, rfl⟩

theorem mem_versionsOf_sweep_iff {k : Key} {v : Nat} :
    (k, v) ∈ versionsOf ((w.sweep i scope).map fingerprintRecord) ↔
      ∃ x, w.InScope i scope x ∧ domainKey x = k ∧ x.version = v := by
  simp only [versionsOf, List.mem_map, mem_sweep_iff]
  constructor
  · rintro ⟨_, ⟨f, ⟨x, hx, rfl⟩, rfl⟩, hpair⟩
    obtain ⟨rfl, rfl⟩ := Prod.mk.inj hpair
    exact ⟨x, hx, rfl, rfl⟩
  · rintro ⟨x, hx, rfl, rfl⟩
    exact ⟨_, ⟨_, ⟨x, hx, rfl⟩, rfl⟩, rfl⟩

theorem sweptKeys_nodup (w : World Id) (i : Nat) (scope : SchemaScope) :
    ((w.sweep i scope).map sweptKey).Nodup := by
  have hkeys : ((w.sweep i scope).map sweptKey)
      = ((w.catalog i).objects.filter
          ((w.catalog i).inScope w.session scope)).map domainKey := by
    simp [World.sweep, Catalog.schemaFingerprints, domainKey, Function.comp_def]
  rw [hkeys]
  have hobjects : ((w.catalog i).objects.map ServerObject.key).Nodup :=
    (w.catalog i).keys_nodup
  refine List.Nodup.map_on ?_ ((List.Nodup.of_map _ hobjects).filter _)
  intro x hx y hy hxy
  exact Catalog.key_inj (List.mem_filter.1 hx).1 (List.mem_filter.1 hy).1
    (domainKey_inj hxy)

/-- A key has one object in a catalog. -/
theorem eq_of_domainKey {x y : ServerObject} (hx : x ∈ (w.catalog i).objects)
    (hy : y ∈ (w.catalog i).objects) (h : domainKey x = domainKey y) : x = y :=
  Catalog.key_inj hx hy (domainKey_inj h)

theorem oneVersion_sweep (w : World Id) (i : Nat) (scope : SchemaScope) :
    OneVersion ((w.sweep i scope).map fingerprintRecord) := by
  intro k v v' h h'
  obtain ⟨x, hx, rfl, rfl⟩ := mem_versionsOf_sweep_iff.1 h
  obtain ⟨y, hy, hkey, rfl⟩ := mem_versionsOf_sweep_iff.1 h'
  rw [eq_of_domainKey hx.1 hy.1 hkey.symm]

/-! ## Tracking -/

/-- The database object of the connection. -/
def World.database (w : World Id) : SchemaObject Id :=
  databaseObject w.ids w.connectionId w.session

/-- `snapshot`, read before instant `t`, tracks the server. -/
structure Tracks (w : World Id) (t : Nat) (snapshot : SchemaSnapshot Id) :
    Prop where
  linked : Linked w.ids w.connectionId snapshot.objects
  database : w.database ∈ snapshot.objects
  versions : OneVersion snapshot.fingerprints
  kinds : ∀ k v, (k, v) ∈ versionsOf snapshot.fingerprints →
    k.1 ≠ .view ∧ k.1 ≠ .database
  known : ∀ o ∈ snapshot.objects, o = w.database ∨
    ∃ k v, Names w.ids w.connectionId k o ∧
      (k, v) ∈ versionsOf snapshot.fingerprints
  current : ∀ j, t ≤ j → ∀ x ∈ (w.catalog j).objects,
    (domainKey x, x.version) ∈ versionsOf snapshot.fingerprints →
      ∃ o ∈ snapshot.objects, w.describeAt j x = some o.forgetRows
  authentic : ∀ o ∈ snapshot.objects, o = w.database ∨
    ∃ j < t, ∃ x ∈ (w.catalog j).objects,
      (w.catalog j).describe w.ids w.connectionId x = some o

theorem Tracks.mono {t t' : Nat} {snapshot : SchemaSnapshot Id}
    (h : Tracks w t snapshot) (ht : t ≤ t') : Tracks w t' snapshot where
  linked := h.linked
  database := h.database
  versions := h.versions
  kinds := h.kinds
  known := h.known
  current j hj := h.current j (ht.trans hj)
  authentic o ho := by
    rcases h.authentic o ho with rfl | ⟨j, hj, hx⟩
    · exact .inl rfl
    · exact .inr ⟨j, hj.trans_le ht, hx⟩

theorem describeAt_eq_some_iff {j : Nat} {x : ServerObject}
    {o : SchemaObject Id} :
    w.describeAt j x = some o.forgetRows ↔
      ∃ o', (w.catalog j).describe w.ids w.connectionId x = some o' ∧
        o'.forgetRows = o.forgetRows :=
  Option.map_eq_some_iff

/-- An object that describes a server object has its key. -/
theorem names_of_describeAt {j : Nat} {x : ServerObject} {o : SchemaObject Id}
    (h : w.describeAt j x = some o.forgetRows) :
    Names w.ids w.connectionId (domainKey x) o := by
  obtain ⟨o', ho', heq⟩ := describeAt_eq_some_iff.1 h
  exact (describe_names ho').of_forgetRows heq

theorem not_names_database {x : ServerObject} :
    ¬ Names w.ids w.connectionId (domainKey x) w.database := by
  intro h
  have hkey : domainKey x = (.database, w.session.databaseId) :=
    h.eq names_databaseObject
  exact domainKey_ne_database x (by rw [hkey])

/-! ## Full introspection -/

/-- The objects of a full introspection at instant `i`. -/
def World.introspect (w : World Id) (i : Nat) (scope : SchemaScope) :
    List (SchemaObject Id) :=
  objectsFromEntries w.ids w.connectionId
    ((w.catalog i).snapshotSchema w.session scope)

theorem mem_introspect_iff {o : SchemaObject Id} :
    o ∈ w.introspect i scope ↔ o = w.database ∨
      ∃ x, w.InScope i scope x ∧
        (w.catalog i).describe w.ids w.connectionId x = some o := by
  have hentries : (w.catalog i).snapshotSchema w.session scope
      = readEntries w.session [(w.catalog i, scope)] := by
    simp [readEntries]
  rw [World.introspect, hentries,
    mem_objectsFromEntries_iff (compatible_single _ _)]
  simp [World.database, World.InScope, and_assoc]

/-- What one introspection reads is linked. -/
theorem linked_introspect (w : World Id) (i : Nat) (scope : SchemaScope) :
    Linked w.ids w.connectionId (w.introspect i scope) := by
  constructor
  · intro o ho
    rcases mem_introspect_iff.1 ho with rfl | ⟨x, -, hx⟩
    · exact ⟨_, names_databaseObject⟩
    · exact ⟨_, describe_names hx⟩
  · intro o ho o' ho' k hk hk'
    rcases mem_introspect_iff.1 ho with rfl | ⟨x, hx, hdescribe⟩ <;>
      rcases mem_introspect_iff.1 ho' with rfl | ⟨x', hx', hdescribe'⟩
    · rfl
    · obtain rfl := hk'.eq (describe_names hdescribe')
      exact absurd hk not_names_database
    · obtain rfl := hk.eq (describe_names hdescribe)
      exact absurd hk' not_names_database
    · obtain rfl := hk.eq (describe_names hdescribe)
      have hkey := hk'.eq (describe_names hdescribe')
      obtain rfl := eq_of_domainKey hx.1 hx'.1 hkey
      exact Option.some.inj (hdescribe.symm.trans hdescribe')
  · intro o ho p hp
    rcases mem_introspect_iff.1 ho with rfl | ⟨x, hx, hdescribe⟩
    · cases hp
    · cases hn : x.definition.parent with
      | none =>
          rw [(describe_of_no_parent hn hdescribe).1] at hp
          cases hp
      | some n =>
          obtain ⟨y, P, hy, hrelation, hP, hparent, hroot, hschema⟩ :=
            describe_of_parent hx.1 hn hdescribe
          obtain rfl : P.id = p := Option.some.inj (hparent.symm.trans hp)
          refine ⟨P, mem_introspect_iff.2 (.inr ⟨y, ⟨hy, ?_⟩, hP⟩), rfl, hroot, ?_⟩
          · rw [← Catalog.inScope_child hn hrelation, hx.2]
          · obtain ⟨schema, hschema'⟩ := Catalog.schemaOf_isSome hx.1
            rw [hschema, hschema']
            rfl

/-- A full introspection tracks the server if its sweep, at instant `k`, sees
what it has read at instant `i`. -/
theorem tracks_of_introspect (hversions : w.VersionsTrack) {k t : Nat}
    (hi : i < t) {snapshot : SchemaSnapshot Id}
    (hobjects : snapshot.objects = w.introspect i scope)
    (hfingerprints : snapshot.fingerprints
      = (w.sweep k scope).map fingerprintRecord)
    (hsame : ∀ f, f ∈ w.sweep i scope ↔ f ∈ w.sweep k scope) :
    Tracks w t snapshot := by
  have hswept : ∀ x, w.InScope i scope x →
      (domainKey x, x.version) ∈ versionsOf snapshot.fingerprints := by
    intro x hx
    obtain ⟨y, hy, hfingerprint⟩ :=
      mem_sweep_iff.1 ((hsame _).1 (mem_sweep_iff.2 ⟨x, hx, rfl⟩))
    rw [hfingerprints]
    refine mem_versionsOf_sweep_iff.2 ⟨y, hy, ?_, ?_⟩
    · rw [domainKey, hfingerprint, domainKey]
    · exact congrArg SchemaFingerprint.version hfingerprint
  refine ⟨?_, ?_, ?_, ?_, ?_, ?_, ?_⟩
  · rw [hobjects]
    exact linked_introspect w i scope
  · rw [hobjects]
    exact mem_introspect_iff.2 (.inl rfl)
  · rw [hfingerprints]
    exact oneVersion_sweep w k scope
  · intro key v hv
    rw [hfingerprints] at hv
    obtain ⟨x, -, rfl, -⟩ := mem_versionsOf_sweep_iff.1 hv
    exact ⟨domainKey_ne_view x, domainKey_ne_database x⟩
  · intro o ho
    rw [hobjects] at ho
    rcases mem_introspect_iff.1 ho with rfl | ⟨x, hx, hdescribe⟩
    · exact .inl rfl
    · exact .inr ⟨_, _, describe_names hdescribe, hswept x hx⟩
  · intro j hj x hx hv
    rw [hfingerprints] at hv
    obtain ⟨y, hy, hkey, hversion⟩ := mem_versionsOf_sweep_iff.1 hv
    obtain ⟨z, hz, hfingerprint⟩ :=
      mem_sweep_iff.1 ((hsame _).2 (mem_sweep_iff.2 ⟨y, hy, rfl⟩))
    have hzkey : z.key = x.key := by
      apply domainKey_inj
      rw [domainKey, hfingerprint, ← domainKey, hkey]
    have hzversion : z.version = x.version := by
      rw [← hversion]
      exact congrArg SchemaFingerprint.version hfingerprint
    obtain ⟨-, -, -, -, -, hdescribe⟩ := hversions i i j le_rfl (by omega) z hz.1
      x hx hzkey hzversion
    obtain ⟨o, ho⟩ := exists_describe w.ids w.connectionId hz.1
    refine ⟨o, ?_, ?_⟩
    · rw [hobjects]
      exact mem_introspect_iff.2 (.inr ⟨z, hz, ho⟩)
    · rw [hdescribe]
      exact describeAt_eq_some_iff.2 ⟨o, ho, rfl⟩
  · intro o ho
    rw [hobjects] at ho
    rcases mem_introspect_iff.1 ho with rfl | ⟨x, hx, hdescribe⟩
    · exact .inl rfl
    · exact .inr ⟨i, hi, x, hx.1, hdescribe⟩

/-! ## Snapshots that are up to date -/

/-- The two lists hold the same objects, row counts aside. -/
def SameObjects (objects objects' : List (SchemaObject Id)) : Prop :=
  ∀ o, o ∈ objects.map SchemaObject.forgetRows ↔
    o ∈ objects'.map SchemaObject.forgetRows

theorem SameObjects.refl (objects : List (SchemaObject Id)) :
    SameObjects objects objects :=
  fun _ => Iff.rfl

/-- A tracking snapshot whose fingerprints are those of the server holds what a
full introspection would read. -/
theorem Tracks.sameObjects {t : Nat} {snapshot : SchemaSnapshot Id}
    (h : Tracks w t snapshot) (ht : t ≤ i)
    (hswept : ∀ x, w.InScope i scope x →
      (domainKey x, x.version) ∈ versionsOf snapshot.fingerprints)
    (hpresent : ∀ k v, (k, v) ∈ versionsOf snapshot.fingerprints →
      ∃ x, w.InScope i scope x ∧ domainKey x = k) :
    SameObjects snapshot.objects (w.introspect i scope) := by
  have hcurrent : ∀ x, w.InScope i scope x → ∃ o ∈ snapshot.objects,
      w.describeAt i x = some o.forgetRows :=
    fun x hx => h.current i ht x hx.1 (hswept x hx)
  intro o
  simp only [List.mem_map]
  constructor
  · rintro ⟨p, hp, rfl⟩
    rcases h.known p hp with rfl | ⟨k, v, hk, hv⟩
    · exact ⟨_, mem_introspect_iff.2 (.inl rfl), rfl⟩
    · obtain ⟨x, hx, rfl⟩ := hpresent k v hv
      obtain ⟨q, hq, hdescribe⟩ := hcurrent x hx
      obtain rfl := h.linked.unique p hp q hq _ hk (names_of_describeAt hdescribe)
      obtain ⟨p', hp', heq⟩ := describeAt_eq_some_iff.1 hdescribe
      exact ⟨p', mem_introspect_iff.2 (.inr ⟨x, hx, hp'⟩), heq⟩
  · rintro ⟨p, hp, rfl⟩
    rcases mem_introspect_iff.1 hp with rfl | ⟨x, hx, hdescribe⟩
    · exact ⟨_, h.database, rfl⟩
    · obtain ⟨q, hq, hq'⟩ := hcurrent x hx
      obtain ⟨p', hp', heq⟩ := describeAt_eq_some_iff.1 hq'
      obtain rfl := Option.some.inj (hp'.symm.trans hdescribe)
      exact ⟨q, hq, heq.symm⟩

/-- An empty difference leaves a tracking snapshot up to date. -/
theorem Tracks.sameObjects_of_isEmpty {snapshot : SchemaSnapshot Id}
    (h : Tracks w i snapshot)
    (hempty : (diffFingerprints snapshot.fingerprints
      (w.sweep i scope)).isEmpty = true) :
    SameObjects snapshot.objects (w.introspect i scope) := by
  simp only [SchemaDelta.isEmpty, Bool.and_eq_true,
    List.isEmpty_iff] at hempty
  obtain ⟨⟨hadded, hchanged⟩, hdropped⟩ := hempty
  refine h.sameObjects le_rfl ?_ ?_
  · intro x hx
    have hmem := mem_sweep_iff.2 ⟨x, hx, rfl⟩
    exact version_of_unchanged h.versions (sweptKeys_nodup w i scope) hmem
      (by simp [hadded]) (by simp [hchanged])
  · intro k v hv
    have hswept : k ∈ (w.sweep i scope).map sweptKey := by
      by_contra hnot
      have hmem := (mem_dropped_iff h.versions (sweptKeys_nodup w i scope)).2
        ⟨⟨v, hv⟩, hnot⟩
      rw [hdropped] at hmem
      cases hmem
    exact mem_sweptKeys_iff.1 hswept

/-- A tracking snapshot with the fingerprints of a sweep is up to date. -/
theorem Tracks.sameObjects_of_sweep {t : Nat} {snapshot : SchemaSnapshot Id}
    (h : Tracks w t snapshot) (ht : t ≤ i)
    (hfingerprints : snapshot.fingerprints
      = (w.sweep i scope).map fingerprintRecord) :
    SameObjects snapshot.objects (w.introspect i scope) := by
  refine h.sameObjects ht ?_ ?_ <;> rw [hfingerprints]
  · intro x hx
    exact mem_versionsOf_sweep_iff.2 ⟨x, hx, rfl, rfl⟩
  · intro k v hv
    obtain ⟨x, hx, hkey, -⟩ := mem_versionsOf_sweep_iff.1 hv
    exact ⟨x, hx, hkey⟩

end Tempr.Services.SchemaService
