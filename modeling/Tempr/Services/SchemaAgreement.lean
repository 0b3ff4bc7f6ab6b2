import Tempr.Services.SchemaRuns

/-!
# Incremental and full refreshes agree

An incremental refresh of a snapshot that tracks the server, with the server at
rest, leaves what a full introspection would read. After a splice this is so
exactly if the splice covers what has changed; where objects stay in their
schema, it is so on every path.
-/

namespace Tempr.Services.SchemaService

open Tempr.Support

variable {Id : Type} [DecidableEq Id] {w : World Id} {s s' : State Id}
  {scope : SchemaScope} {snapshot cached : SchemaSnapshot Id}

/-! ## Refreshes with the server at rest -/

/-- A splice with the server at rest makes what a full introspection would read
exactly if it covers what has changed. -/
theorem Splicing.sameObjects_iff {i : Nat} {schemas : List String}
    (h : Splicing w i scope cached schemas) (hversions : w.VersionsTrack)
    (hrest : w.AtRest i (i + 1 + schemas.length))
    (hobjects : snapshot.objects = w.spliced i scope cached schemas)
    (hfingerprints : snapshot.fingerprints
      = (w.sweep i scope).map fingerprintRecord) :
    SameObjects snapshot.objects (w.introspect i scope) ↔
      w.Covers i scope cached := by
  constructor
  · intro hsame
    exact h.covers_of_sameObjects hrest (hobjects ▸ hsame)
  · intro hcovers
    have htracks := h.tracks_spliced (h.findsSwept hrest hcovers) hversions
      (h.alteredReread hcovers) hrest.staysPut hobjects hfingerprints
    have hsweep : w.sweep (i + 1 + schemas.length) scope = w.sweep i scope :=
      hrest.sweep (by omega)
    rw [← hsweep] at hfingerprints
    have hsame := htracks.sameObjects_of_sweep le_rfl hfingerprints
    rwa [hrest.introspect (by omega)] at hsame

/-- After a run of steady calls, a splice with the server at rest leaves what a
full introspection would read exactly if every altered object is in a schema in
which an altered object is cached, and every object of such a schema is in
scope. -/
theorem incremental_eq_full_iff (hversions : w.VersionsTrack)
    (hreach : ((service w).restrict (Steady w)).Reachable s) {s₁ : State Id}
    (hcached : s.cachedSnapshot w = (some cached, s₁)) {schemas touched : Nat}
    (hspliced : refreshIncremental w s
      = (.ok (snapshot, .incremental schemas touched), s'))
    (hrest : w.AtRest s.clock s'.clock) :
    SameObjects snapshot.objects (w.introspect s'.clock s₁.refreshScopeFor) ↔
      w.Covers s.clock s₁.refreshScopeFor cached := by
  have hready := ready_of_reachable hversions hreach
  obtain ⟨found, s₂, hfound, hcases⟩ := refreshIncremental_cases w s
  obtain ⟨rfl, rfl⟩ := Prod.mk.inj (hcached.symm.trans hfound)
  obtain ⟨-, hclock, -⟩ := hready.cachedSnapshot hfound
  rcases hcases with ⟨reason, t, -, -, hrefresh⟩ | ⟨error, count, hfail⟩ |
    ⟨_, hsome, -, ⟨-, hunchanged⟩ |
      ⟨names, result, hsplices, hok, hobjects, hfingerprints⟩⟩
  · rw [hrefresh, fullRefreshFallback] at hspliced
    rcases hscope : SchemaService.refreshScope w t.refreshScopeFor t with
      ⟨result, t'⟩
    cases result <;> simp [hscope] at hspliced
  · simp [hfail] at hspliced
  · simp [hunchanged] at hspliced
  · obtain rfl := Option.some.inj hsome
    obtain ⟨hresult, hs'⟩ := Prod.mk.inj (hok.symm.trans hspliced)
    obtain ⟨rfl, -⟩ := Prod.mk.inj (Except.ok.inj hresult)
    have hend : s'.clock = s.clock + 1 + names.length := by
      rw [← hs']
      simp [State.wait, hclock, Nat.add_assoc]
    rw [hclock] at hobjects hfingerprints
    rw [hrest.introspect (by omega)]
    rw [hend] at hrest
    exact (hready.splicing hsplices).sameObjects_iff hversions hrest hobjects
      hfingerprints

/-! ### A server that changes once -/

omit [DecidableEq Id] in
theorem World.VersionsTrack.of_switch {before after : Catalog} (n : Nat)
    (hcatalog : ∀ i, w.catalog i = if i < n then before else after)
    (hsame : ∀ x ∈ before.objects, ∀ z ∈ after.objects, x.key = z.key →
      x.version = z.version →
        (after.describe w.ids w.connectionId z).map SchemaObject.forgetRows
          = (before.describe w.ids w.connectionId x).map
              SchemaObject.forgetRows) : w.VersionsTrack := by
  intro i j k hij hjk x hx z hz hkey hversion
  simp only [World.describeAt]
  rw [hcatalog] at hx hz
  by_cases hi : i < n <;> by_cases hk : k < n
  · rw [if_pos hi] at hx
    rw [if_pos hk] at hz
    obtain rfl := Catalog.key_inj hx hz hkey
    refine ⟨x, ?_, rfl, rfl, ?_, ?_⟩ <;>
      simp [hcatalog, hi, hk, hx, show j < n by omega]
  · rw [if_pos hi] at hx
    rw [if_neg hk] at hz
    have hdescribe := hsame x hx z hz hkey hversion
    by_cases hj : j < n
    · refine ⟨x, ?_, rfl, rfl, ?_, ?_⟩ <;> simp [hcatalog, hi, hk, hj, hx,
        hdescribe]
    · refine ⟨z, ?_, hkey.symm, hversion.symm, ?_, ?_⟩ <;>
        simp [hcatalog, hi, hk, hj, hz, hdescribe]
  · omega
  · rw [if_neg hi] at hx
    rw [if_neg hk] at hz
    obtain rfl := Catalog.key_inj hx hz hkey
    refine ⟨x, ?_, rfl, rfl, ?_, ?_⟩ <;>
      simp [hcatalog, hi, hk, hx, show ¬ j < n by omega]

omit [DecidableEq Id] in
theorem World.AtRest.of_switch {before after : Catalog} (n : Nat)
    (hcatalog : ∀ i, w.catalog i = if i < n then before else after) {i j : Nat}
    (hi : n ≤ i) : w.AtRest i j := by
  intro k hk _
  rw [hcatalog, hcatalog, if_neg (by omega), if_neg (by omega)]

abbrev ObjectId : Type :=
  ConnectionId × SchemaObjectKind × Nat

/-- Ids that spell out what they are derived from. -/
def objectIds : ObjectIds ObjectId where
  derived connection kind nativeId := (connection, kind, nativeId)
  derived_inj h := by simpa using h

def sqlFunction (nativeId version : Nat) (schema name : String) :
    ServerObject where
  nativeId := nativeId
  version := version
  definition := .function schema name [] "integer" "sql"

def functionsCatalog (functions : List ServerObject)
    (keys_nodup : (functions.map ServerObject.key).Nodup)
    (hfunctions : ∀ x ∈ functions, x.definition.kind = .function) :
    Catalog where
  objects := functions
  keywords := []
  keys_nodup := keys_nodup
  relationName_inj := by
    intro x hx _ _ hname
    have hfunction := hfunctions x hx
    cases hd : x.definition <;>
      simp_all [Definition.relationName, Definition.kind]
  parent_mem := by
    intro x hx n hn
    have hfunction := hfunctions x hx
    cases hd : x.definition <;> simp_all [Definition.parent, Definition.kind]

/-- A connection on which nothing fails, to a server that changes at instant
`n`. -/
def changingServer (n : Nat) (before after : Catalog) : World ObjectId where
  ids := objectIds
  connectionId := ⟨"5f0c"⟩
  session := ⟨16384, "app", ["a", "b"]⟩
  catalog i := if i < n then before else after
  refusal _ := none
  fault _ := none
  snapshotId _ := ⟨"77ab"⟩
  storage := false
  loadFails _ := false
  saveFails _ := false
  contentHash _ := 0

def threeFunctions : Catalog :=
  functionsCatalog [sqlFunction 1 1 "a" "f", sqlFunction 2 1 "b" "g",
    sqlFunction 3 1 "b" "h"] (by decide) (by decide)

/-- The first function renamed. -/
def threeFunctionsRenamed : Catalog :=
  functionsCatalog [sqlFunction 1 2 "a" "e", sqlFunction 2 1 "b" "g",
    sqlFunction 3 1 "b" "h"] (by decide) (by decide)

/-- The first function moved to the schema of the others. -/
def threeFunctionsMoved : Catalog :=
  functionsCatalog [sqlFunction 1 2 "b" "f", sqlFunction 2 1 "b" "g",
    sqlFunction 3 1 "b" "h"] (by decide) (by decide)

/-- The function is renamed after the first refresh. -/
def renamingServer : World ObjectId :=
  changingServer 3 threeFunctions threeFunctionsRenamed

/-- The function is moved after the first refresh. -/
def movingServer : World ObjectId :=
  changingServer 3 threeFunctions threeFunctionsMoved

/-- The function is renamed between the entries and the sweep of the first
refresh. -/
def overtakingServer : World ObjectId :=
  changingServer 2 threeFunctions threeFunctionsRenamed

theorem versionsTrack_changingServer {before after : Catalog} (n : Nat)
    (hsame : ∀ x ∈ before.objects, ∀ z ∈ after.objects, x.key = z.key →
      x.version = z.version →
        (after.describe objectIds ⟨"5f0c"⟩ z).map SchemaObject.forgetRows
          = (before.describe objectIds ⟨"5f0c"⟩ x).map
              SchemaObject.forgetRows) :
    (changingServer n before after).VersionsTrack :=
  .of_switch n (fun _ => rfl) hsame

/-- The state after one refresh of every schema. -/
def refreshed (w : World ObjectId) : State ObjectId :=
  perform w .fresh (.refreshScope .all)

theorem reachable_refreshed {w : World ObjectId}
    {P : State ObjectId → Call → Prop} (h : P .fresh (.refreshScope .all)) :
    ((service w).restrict P).Reachable (refreshed w) :=
  (System.Reachable.init rfl).step (l := .refreshScope .all) ⟨rfl, h⟩

/-- The full refresh has ended before the server changes. -/
theorem sweepsRead_before_change {before after : Catalog} {i : Nat}
    {scope : SchemaScope}
    (h : FullReads (changingServer 3 before after) .fresh
      (.refreshScope .all) i scope) :
    (changingServer 3 before after).SweepsRead i scope := by
  obtain ⟨rfl, rfl⟩ := h
  exact fun f => Iff.rfl

theorem steady_before_change (before after : Catalog) :
    Steady (changingServer 3 before after) .fresh (.refreshScope .all) :=
  ⟨fun _ _ => sweepsRead_before_change, by simp, by simp, by simp⟩

theorem incremental_eq_full_iff_renamed :
    ∃ cached s₁ snapshot s',
      (refreshed renamingServer).cachedSnapshot renamingServer
        = (some cached, s₁) ∧
      refreshIncremental renamingServer (refreshed renamingServer)
        = (.ok (snapshot, .incremental 1 1), s') ∧
      (SameObjects snapshot.objects
        (renamingServer.introspect s'.clock s₁.refreshScopeFor) ↔
          renamingServer.Covers (refreshed renamingServer).clock
            s₁.refreshScopeFor cached) :=
  ⟨_, _, _, _, rfl, rfl, incremental_eq_full_iff
    (versionsTrack_changingServer 3 (by decide))
    (reachable_refreshed (steady_before_change _ _)) rfl rfl
    (.of_switch 3 (fun _ => rfl) le_rfl)⟩

/-- A function that was moved to another schema is not in the splice: only the
schema in which it is cached is read again. -/
theorem moved_function_lost :
    movingServer.VersionsTrack ∧
    (service movingServer).Reachable (refreshed movingServer) ∧
    ∃ snapshot s', refreshIncremental movingServer (refreshed movingServer)
        = (.ok (snapshot, .incremental 1 1), s') ∧
      movingServer.AtRest (refreshed movingServer).clock s'.clock ∧
      ¬ SameObjects snapshot.objects
        (movingServer.introspect s'.clock s'.refreshScopeFor) := by
  refine ⟨versionsTrack_changingServer 3 (by decide),
    (System.Reachable.init rfl).step (l := .refreshScope .all) rfl, _, _, rfl,
    .of_switch 3 (fun _ => rfl) le_rfl, ?_⟩
  intro hsame
  have hmoved := (hsame (.function (⟨"5f0c"⟩, .function, 1) "b" "f" []
    "integer" "sql")).2 (by decide)
  revert hmoved
  decide

/-! ## Servers whose objects stay in their schema -/

/-- Objects are created, altered and dropped, but none changes its schema. -/
def World.NoMoves (w : World Id) : Prop :=
  ∀ i j, ∀ x ∈ (w.catalog i).objects, ∀ y ∈ (w.catalog j).objects,
    x.key = y.key → (w.catalog i).schemaOf x = (w.catalog j).schemaOf y

/-- Full reads sweep what they have read, and splices re-read nothing but what
their sweep has seen. -/
structure Undisturbed (w : World Id) (s : State Id) (call : Call) : Prop where
  sweepsRead : ∀ i scope, FullReads w s call i scope → w.SweepsRead i scope
  findsSwept : call = .refreshIncremental → ∀ scope cached schemas,
    Splices w s scope cached schemas → w.FindsSwept s.clock scope schemas

omit [DecidableEq Id] in
theorem World.NoMoves.staysPut (h : w.NoMoves) (i : Nat) (scope : SchemaScope)
    (schemas : List String) : w.StaysPut i scope schemas := by
  intro a schema x _ hx hschema y hy hkey
  rw [← h i (i + 1 + a) x hx.1 y hy hkey.symm, hschema]

/-- A cached object is in the schema where its server object is. -/
theorem Tracks.objectSchema {t : Nat} (h : Tracks w t cached)
    (hmoves : w.NoMoves) {i : Nat} {x : ServerObject}
    (hx : x ∈ (w.catalog i).objects) {o : SchemaObject Id}
    (ho : o ∈ cached.objects)
    (hname : Names w.ids w.connectionId (domainKey x) o) :
    SchemaService.objectSchema (indexById cached.objects) o
      = (w.catalog i).schemaOf x := by
  rcases h.authentic o ho with rfl | ⟨j, -, z, hz, hdescribe⟩
  · exact absurd hname not_names_database
  · have hkey := domainKey_inj (hname.eq (describe_names hdescribe))
    rw [hmoves i j x hx z hz hkey]
    cases hn : z.definition.parent with
    | none =>
        obtain ⟨hroot, hschema⟩ := describe_of_no_parent hn hdescribe
        rw [objectSchema_of_no_parent _ hroot, hschema]
    | some n =>
        obtain ⟨y, P', hy, hrelation, hP', hparent, -, -⟩ :=
          describe_of_parent hz hn hdescribe
        obtain ⟨P, hP, hid, hroot, hsome⟩ := h.linked.parent o ho _ hparent
        have hlookup := lookup_indexById h.linked hP
        rw [hid] at hlookup
        rw [objectSchema_of_parent hparent hlookup hroot]
        -- the cached relation comes from a read of its own
        rcases h.authentic P hP with rfl | ⟨k, -, y', hy', hdescribe'⟩
        · cases hsome
        · have hkey' := domainKey_inj
            ((describe_names hP').eq_of_id (describe_names hdescribe') hid.symm)
          have hroot' : y'.definition.parent = none := by
            cases hn' : y'.definition.parent with
            | none => rfl
            | some n' =>
                obtain ⟨_, _, -, -, -, hparent', -⟩ :=
                  describe_of_parent hy' hn' hdescribe'
                rw [hroot] at hparent'
                cases hparent'
          rw [(describe_of_no_parent hroot' hdescribe').2,
            Catalog.schemaOf_child hn hrelation, hmoves j k y hy y' hy' hkey']

/-- Where nothing moves, a splice re-reads every altered object. -/
theorem Splicing.alteredReread_of_noMoves {i : Nat} {schemas : List String}
    (h : Splicing w i scope cached schemas) (hmoves : w.NoMoves) :
    w.AlteredReread i scope cached schemas := by
  intro x hx
  obtain ⟨schema, hmem, o, ho, hname, hschema⟩ := h.cachedIn_of_altered hx
  exact ⟨schema, hmem,
    (h.tracks.objectSchema hmoves hx.1.1 ho hname).symm.trans hschema⟩

theorem Undisturbed.steady {call : Call} (h : Undisturbed w s call)
    (hready : Ready w s) (hmoves : w.NoMoves) : Steady w s call where
  sweepsRead := h.sweepsRead
  alteredReread _ _ _ _ hsplices :=
    (hready.splicing hsplices).alteredReread_of_noMoves hmoves
  findsSwept := h.findsSwept
  staysPut _ _ _ _ _ := hmoves.staysPut _ _ _

/-- A schema in which an altered object is cached has an altered object. -/
theorem Splicing.exists_altered {i : Nat} {schemas : List String}
    (h : Splicing w i scope cached schemas) (hmoves : w.NoMoves)
    {schema : String} (hmem : schema ∈ schemas) :
    ∃ x, w.Altered i scope cached x ∧
      (w.catalog i).schemaOf x = some schema := by
  obtain ⟨x, hx, o, ho, hname, hschema⟩ := h.mem_schemas_iff.1 hmem
  exact ⟨x, hx,
    (h.tracks.objectSchema hmoves hx.1.1 ho hname).symm.trans hschema⟩

/-- With the server at rest and a scope of whole schemas, a splice re-reads only
what its sweep has seen. -/
theorem Splicing.findsSwept_of_noMoves {i : Nat} {schemas : List String}
    (h : Splicing w i scope cached schemas) (hmoves : w.NoMoves)
    (hrest : w.AtRest i (i + 1 + schemas.length))
    (hscope : ∀ name, scope.hasRelation name = true) :
    w.FindsSwept i scope schemas := by
  intro a schema y hy
  obtain ⟨ha, hmem, hschema⟩ := hrest.finds.1 hy
  obtain ⟨x, hx, hxschema⟩ :=
    h.exists_altered hmoves (List.mem_of_getElem? ha)
  refine ⟨y, ⟨hmem, ?_⟩, rfl, hschema⟩
  have hin := hx.1.2
  rw [Catalog.inScope, hxschema, Bool.and_eq_true] at hin
  rw [Catalog.inScope, hschema, hin.1, Bool.true_and]
  cases (w.catalog i).ownerName y with
  | none => rfl
  | some name => exact hscope name

omit [DecidableEq Id] in
theorem State.cachedSnapshot_clock {found : Option (SchemaSnapshot Id)}
    {s₁ : State Id} (h : s.cachedSnapshot w = (found, s₁)) :
    s₁.clock = s.clock := by
  rcases s.cachedSnapshot_cases (w := w) with hnone | ⟨_, -, hsome⟩
  · rw [(Prod.mk.inj (hnone.symm.trans h)).2]
  · rw [← (Prod.mk.inj (hsome.symm.trans h)).2]

/-- A splice ends after its last re-read. -/
theorem Splices.clock {schemas : List String}
    (h : Splices w s scope cached schemas) :
    (perform w s .refreshIncremental).clock
      = s.clock + 1 + schemas.length := by
  obtain ⟨swept, delta, t, hplan, rfl⟩ := h
  have ht : t.clock = s.clock + 1 := by
    obtain ⟨found, s₁, hfound, hcases⟩ := planIncremental_cases w s
    rw [← State.cachedSnapshot_clock hfound]
    rcases hcases with ⟨_, _, hother, -⟩ | ⟨_, hother⟩ | ⟨_, -, -, hother⟩ <;>
      obtain ⟨hsame, rfl⟩ := Prod.mk.inj (hplan.symm.trans hother)
    · cases hsame
    · rfl
    · rfl
  rw [perform, refreshIncremental, hplan]
  cases hreread : reread w t.clock schemas <;> simp only [hreread]
  · simp [State.wait, ht]
  · simp [State.wait, ht]

omit [DecidableEq Id] in
theorem refreshScope_clock (w : World Id) (scope : SchemaScope)
    (s : State Id) : (refreshScope w scope s).2.clock = s.clock + 3 := by
  rcases refreshScope_cases w scope s with ⟨error, h⟩ | ⟨snapshot, h, -⟩ <;>
    simp [h, State.wait]

/-- A full read ends with its sweep. -/
theorem FullReads.clock {call : Call} {i : Nat}
    (h : FullReads w s call i scope) :
    s.clock ≤ i ∧ (perform w s call).clock = i + 3 := by
  cases call with
  | refreshScope _ =>
      obtain ⟨rfl, rfl⟩ := h
      exact ⟨le_rfl, refreshScope_clock _ _ _⟩
  | refresh =>
      obtain ⟨rfl, rfl⟩ := h
      exact ⟨le_rfl, refreshScope_clock _ _ _⟩
  | refreshIncremental =>
      obtain ⟨reason, t, hplan, rfl, rfl⟩ := h
      constructor
      · obtain ⟨found, s₁, hfound, hcases⟩ := planIncremental_cases w s
        rw [← State.cachedSnapshot_clock hfound]
        rcases hcases with ⟨_, _, hother, rfl | rfl⟩ | ⟨_, hother⟩ |
            ⟨_, -, -, hother⟩ <;>
          obtain ⟨-, rfl⟩ := Prod.mk.inj (hplan.symm.trans hother) <;>
          simp [State.wait]
      · have hend := refreshScope_clock w t.refreshScopeFor t
        rw [perform, refreshIncremental, hplan]
        simp only [fullRefreshFallback]
        rcases hscope : refreshScope w t.refreshScopeFor t with ⟨result, t'⟩
        rw [hscope] at hend
        cases result <;> exact hend
  | loadCached => exact h.elim
  | restart => exact h.elim

/-- With the server at rest, and a scope of whole schemas, every call is
undisturbed. -/
theorem Ready.undisturbed (hready : Ready w s) (hmoves : w.NoMoves)
    (hscope : ∀ schema table, s.scope ≠ some (.table schema table))
    {call : Call}
    (hrest : w.AtRest s.clock (SchemaService.perform w s call).clock) :
    Undisturbed w s call := by
  constructor
  · intro i scope hreads
    obtain ⟨hi, hend⟩ := hreads.clock
    rw [hend] at hrest
    intro f
    rw [(hrest.mono (by omega)).sweep hi,
      (hrest.mono (by omega)).sweep (hi.trans (Nat.le_add_right i 2))]
  · rintro rfl scope cached schemas hsplices
    rw [hsplices.clock] at hrest
    refine (hready.splicing hsplices).findsSwept_of_noMoves hmoves hrest ?_
    obtain ⟨s₁, hfound, rfl, -⟩ := hsplices.spec
    have hs₁ : s₁.scope = s.scope := by
      rcases s.cachedSnapshot_cases (w := w) with hnone | ⟨_, -, hsome⟩
      · rw [(Prod.mk.inj (hnone.symm.trans hfound)).2]
      · rw [← (Prod.mk.inj (hsome.symm.trans hfound)).2]
    intro name
    rw [State.refreshScopeFor, hs₁]
    cases hs : s.scope with
    | none => cases s₁.snapshot <;> rfl
    | some scope =>
        cases scope with
        | table schema table => exact absurd hs (hscope schema table)
        | searchPath => rfl
        | all => rfl
        | schema => rfl

/-- An undisturbed incremental refresh with the server at rest leaves what a full
introspection would read. -/
theorem Ready.sameObjects (hready : Ready w s) (hversions : w.VersionsTrack)
    (hsteady : Steady w s .refreshIncremental) {path : RefreshPath}
    (hok : SchemaService.refreshIncremental w s = (.ok (snapshot, path), s'))
    (hrest : w.AtRest s.clock s'.clock) :
    s'.snapshot = some snapshot ∧ SameObjects snapshot.objects
      (w.introspect s'.clock s'.refreshScopeFor) := by
  obtain ⟨found, s₁, hfound, hcases⟩ := refreshIncremental_cases w s
  obtain ⟨-, hclock, hgood⟩ := hready.cachedSnapshot hfound
  rcases hcases with ⟨reason, t, -, ht, hrefresh⟩ | ⟨error, count, hfail⟩ |
    ⟨cached, hcached, hsome, ⟨hempty, hunchanged⟩ |
      ⟨names, result, hsplices, hspliced, hobjects, hfingerprints⟩⟩
  · have htclock : s.clock ≤ t.clock := by
      rcases ht with rfl | rfl <;> simp [State.wait, hclock]
    rw [hrefresh, fullRefreshFallback] at hok
    rcases refreshScope_cases w t.refreshScopeFor t with
      ⟨error, hfail⟩ | ⟨result, hresult, hobjects, -⟩
    · simp [hfail] at hok
    · rw [hresult] at hok
      obtain ⟨hpair, rfl⟩ := Prod.mk.inj hok
      obtain ⟨rfl, -⟩ := Prod.mk.inj (Except.ok.inj hpair)
      have hend : t.clock ≤ (State.install w { t.wait 3 with
          scope := some t.refreshScopeFor } result).clock := by
        simp [State.wait]
      have hscope : (State.install w { t.wait 3 with
          scope := some t.refreshScopeFor } result).refreshScopeFor
            = t.refreshScopeFor := by
        simp [State.refreshScopeFor]
      refine ⟨State.install_snapshot _ _, ?_⟩
      rw [hscope, hrest.introspect (htclock.trans hend), hobjects,
        (hrest.mono hend).introspect htclock]
      exact SameObjects.refl _
  · simp [hfail] at hok
  · rw [hunchanged] at hok
    obtain ⟨hpair, rfl⟩ := Prod.mk.inj hok
    obtain ⟨rfl, -⟩ := Prod.mk.inj (Except.ok.inj hpair)
    obtain ⟨hcachedGood, hloaded⟩ := hgood cached hcached
    refine ⟨hloaded, ?_⟩
    rw [hrest.introspect (by simp [State.wait, hclock]), ← hclock]
    exact Tracks.sameObjects_of_isEmpty
      (hclock ▸ hcachedGood.resolve_left hsome) hempty
  · rw [hspliced] at hok
    obtain ⟨hpair, hs'⟩ := Prod.mk.inj hok
    obtain ⟨rfl, -⟩ := Prod.mk.inj (Except.ok.inj hpair)
    have hend : s'.clock = s.clock + 1 + names.length := by
      rw [← hs']
      simp [State.wait, hclock, Nat.add_assoc]
    have hscope : s'.refreshScopeFor = s₁.refreshScopeFor := by
      obtain ⟨-, hloaded⟩ := hgood cached hcached
      rw [← hs']
      simp [State.refreshScopeFor, State.wait, hloaded]
    rw [hclock] at hobjects hfingerprints
    have htracks := (hready.splicing hsplices).tracks_spliced
      (hsteady.findsSwept rfl _ _ _ hsplices) hversions
      (hsteady.alteredReread rfl _ _ _ hsplices)
      (hsteady.staysPut rfl _ _ _ hsplices) hobjects hfingerprints
    refine ⟨by rw [← hs', State.install_snapshot], ?_⟩
    rw [hscope]
    rw [← hrest.sweep (by omega)] at hfingerprints
    exact htracks.sameObjects_of_sweep (by omega) hfingerprints

/-- After a run of undisturbed calls, an undisturbed incremental refresh with the
server at rest leaves what a full introspection would read: no change is lost. -/
theorem no_change_lost (hversions : w.VersionsTrack) (hmoves : w.NoMoves)
    (hreach : ((service w).restrict (Undisturbed w)).Reachable s)
    (hlast : Undisturbed w s .refreshIncremental) {path : RefreshPath}
    (hok : refreshIncremental w s = (.ok (snapshot, path), s'))
    (hrest : w.AtRest s.clock s'.clock) :
    s'.snapshot = some snapshot ∧ SameObjects snapshot.objects
      (w.introspect s'.clock s'.refreshScopeFor) := by
  have hready : Ready w s := by
    refine hreach.invariant (I := Ready w) ?_ ?_
    · rintro _ rfl
      exact ready_fresh w
    · rintro s call t ⟨hstep, hundisturbed⟩ hready
      obtain rfl := Option.some.inj hstep
      exact hready.perform hversions (hundisturbed.steady hready hmoves)
  exact hready.sameObjects hversions (hlast.steady hready hmoves) hok hrest

theorem noMoves_changingServer {before after : Catalog} (n : Nat)
    (hsame : ∀ x ∈ before.objects, ∀ z ∈ after.objects, x.key = z.key →
      before.schemaOf x = after.schemaOf z) :
    (changingServer n before after).NoMoves := by
  intro i j x hx y hy hkey
  simp only [changingServer] at hx hy ⊢
  split_ifs at hx hy ⊢ with hi hj hj
  · rw [Catalog.key_inj hx hy hkey]
  · exact hsame x hx y hy hkey
  · exact (hsame y hy x hx hkey.symm).symm
  · rw [Catalog.key_inj hx hy hkey]

theorem no_change_lost_renamed :
    ∃ snapshot s',
      refreshIncremental renamingServer (refreshed renamingServer)
        = (.ok (snapshot, .incremental 1 1), s') ∧
      s'.snapshot = some snapshot ∧ SameObjects snapshot.objects
        (renamingServer.introspect s'.clock s'.refreshScopeFor) := by
  have hversions : renamingServer.VersionsTrack :=
    versionsTrack_changingServer 3 (by decide)
  have hmoves : renamingServer.NoMoves := noMoves_changingServer 3 (by decide)
  have hready : Ready renamingServer (refreshed renamingServer) :=
    ready_of_reachable hversions
      (reachable_refreshed (steady_before_change _ _))
  have hreach : ((service renamingServer).restrict
      (Undisturbed renamingServer)).Reachable (refreshed renamingServer) :=
    reachable_refreshed ⟨fun _ _ => sweepsRead_before_change, by simp⟩
  have hrest : ∀ j, renamingServer.AtRest (refreshed renamingServer).clock j :=
    fun j => .of_switch 3 (fun _ => rfl) le_rfl
  have hscope : (refreshed renamingServer).scope = some .all := rfl
  have hlast : Undisturbed renamingServer (refreshed renamingServer)
      .refreshIncremental :=
    hready.undisturbed hmoves (by simp [hscope]) (hrest _)
  exact ⟨_, _, rfl,
    no_change_lost hversions hmoves hreach hlast rfl (hrest _)⟩

/-- A change between the entries and the sweep of one refresh is recorded as
seen, and later sweeps do not show it. -/
theorem change_before_sweep_lost :
    overtakingServer.VersionsTrack ∧ overtakingServer.NoMoves ∧
    (service overtakingServer).Reachable (refreshed overtakingServer) ∧
    ∃ snapshot s',
      refreshIncremental overtakingServer (refreshed overtakingServer)
        = (.ok (snapshot, .unchanged), s') ∧
      overtakingServer.AtRest (refreshed overtakingServer).clock s'.clock ∧
      ¬ SameObjects snapshot.objects
        (overtakingServer.introspect s'.clock s'.refreshScopeFor) := by
  refine ⟨versionsTrack_changingServer 2 (by decide),
    noMoves_changingServer 2 (by decide),
    (System.Reachable.init rfl).step (l := .refreshScope .all) rfl, _, _, rfl,
    .of_switch 2 (fun _ => rfl) (by decide), ?_⟩
  intro hsame
  have hrenamed := (hsame (.function (⟨"5f0c"⟩, .function, 1) "a" "e" []
    "integer" "sql")).2 (by decide)
  revert hrenamed
  decide

end Tempr.Services.SchemaService
