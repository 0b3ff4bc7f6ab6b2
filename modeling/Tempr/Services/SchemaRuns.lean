import Tempr.Services.SchemaIncremental

/-!
# Runs of the schema service

In a run whose full refreshes see the same objects in their sweep as in their
entries, and whose splices re-read every altered object where the sweep saw it,
every snapshot with fingerprints tracks the server.
-/

namespace Tempr.Services.SchemaService

open Tempr.Support

variable {Id : Type} {w : World Id} {s s' : State Id}
  {scope : SchemaScope} {snapshot cached : SchemaSnapshot Id}

/-! ## Operations -/

namespace State

@[simp] theorem install_clock (s : State Id) (snapshot : SchemaSnapshot Id) :
    (s.install w snapshot).clock = s.clock := by
  simp only [install, saveCached]
  split_ifs <;> rfl

@[simp] theorem install_scope (s : State Id) (snapshot : SchemaSnapshot Id) :
    (s.install w snapshot).scope = s.scope := by
  simp only [install, saveCached]
  split_ifs <;> rfl

@[simp] theorem install_snapshot (s : State Id) (snapshot : SchemaSnapshot Id) :
    (s.install w snapshot).snapshot = some snapshot := by
  simp only [install, saveCached]
  split_ifs <;> rfl

/-- The cache holds the installed snapshot or is as it was. -/
theorem install_cache (s : State Id) (snapshot : SchemaSnapshot Id) :
    (s.install w snapshot).cache = some snapshot ∨
      (s.install w snapshot).cache = s.cache := by
  simp only [install, saveCached]
  split_ifs <;> simp

/-- Loading finds what is on disk, or nothing. -/
theorem loadCached_cases (s : State Id) :
    s.loadCached w = (none, s) ∨ ∃ snapshot, s.cache = some snapshot ∧
      s.loadCached w = (some snapshot, { s with snapshot := some snapshot }) := by
  unfold loadCached
  split_ifs with hstorage
  · exact .inl rfl
  · cases hcache : s.cache with
    | none => exact .inl rfl
    | some snapshot =>
        simp only
        split_ifs
        · exact .inl rfl
        · exact .inr ⟨snapshot, rfl, rfl⟩

/-- An incremental refresh starts from what is in memory or on disk, and has it
in memory. -/
theorem cachedSnapshot_cases (s : State Id) :
    s.cachedSnapshot w = (none, s) ∨ ∃ snapshot,
      (s.snapshot = some snapshot ∨ s.cache = some snapshot) ∧
      s.cachedSnapshot w
        = (some snapshot, { s with snapshot := some snapshot }) := by
  unfold cachedSnapshot
  cases hsnapshot : s.snapshot with
  | some snapshot =>
      refine .inr ⟨snapshot, .inl rfl, ?_⟩
      cases s
      simp_all
  | none =>
      rcases s.loadCached_cases (w := w) with hnone | ⟨snapshot, hcache, hload⟩
      · exact .inl hnone
      · exact .inr ⟨snapshot, .inr hcache, hload⟩

end State

theorem fullRead_eq_ok {i : Nat} {entries : List SchemaSnapshotEntry}
    {keywords : List String} {fingerprints : List SchemaFingerprint}
    (h : fullRead w i scope = .ok (entries, keywords, fingerprints)) :
    entries = (w.catalog i).snapshotSchema w.session scope ∧
      (fingerprints = [] ∨ fingerprints = w.sweep (i + 2) scope) := by
  unfold fullRead at h
  cases hentries : w.snapshotSchema i scope with
  | error error => simp [hentries] at h
  | ok read =>
      cases hkeywords : w.keywords (i + 1) with
      | error error => simp [hentries, hkeywords] at h
      | ok words =>
          cases hswept : w.schemaFingerprints (i + 2) scope with
          | error error =>
              cases error <;> simp_all
              exact (call_eq_ok hentries).symm
          | ok swept =>
              simp only [hentries, hkeywords, hswept, Except.ok.injEq,
                Prod.mk.injEq] at h
              obtain ⟨rfl, -, rfl⟩ := h
              exact ⟨(call_eq_ok hentries).symm, .inr (call_eq_ok hswept).symm⟩

/-- A full refresh fails, or installs what it has read. -/
theorem refreshScope_cases (w : World Id) (scope : SchemaScope) (s : State Id) :
    (∃ error, refreshScope w scope s = (.error error, s.wait 3)) ∨
    ∃ snapshot : SchemaSnapshot Id,
      refreshScope w scope s = (.ok snapshot,
        ({ s.wait 3 with scope := some scope }).install w snapshot) ∧
      snapshot.objects = w.introspect s.clock scope ∧
      (snapshot.fingerprints = [] ∨ snapshot.fingerprints
        = (w.sweep (s.clock + 2) scope).map fingerprintRecord) := by
  unfold refreshScope
  cases hread : w.withMetadataConnection s.clock (fullRead w s.clock scope) with
  | error error => exact .inl ⟨error, rfl⟩
  | ok read =>
      obtain ⟨entries, keywords, fingerprints⟩ := read
      obtain ⟨rfl, hfingerprints⟩ :=
        fullRead_eq_ok (withMetadataConnection_eq_ok hread)
      refine .inr ⟨_, rfl, rfl, ?_⟩
      rcases hfingerprints with rfl | rfl
      · exact .inl rfl
      · exact .inr rfl

variable [DecidableEq Id]

/-- What an incremental refresh decides: to read all, to fail, or by its
sweep. -/
theorem planIncremental_cases (w : World Id) (s : State Id) :
    ∃ found s₁, s.cachedSnapshot w = (found, s₁) ∧
      ((∃ reason t, planIncremental w s = (.fullRefresh reason, t) ∧
          (t = s₁ ∨ t = s₁.wait 1)) ∨
        (∃ error, planIncremental w s = (.failed error, s₁.wait 1)) ∨
        ∃ cached, found = some cached ∧ cached.fingerprints ≠ [] ∧
          planIncremental w s
            = (planSweep w cached (w.sweep s₁.clock s₁.refreshScopeFor),
              s₁.wait 1)) := by
  rcases hfound : s.cachedSnapshot w with ⟨found, s₁⟩
  refine ⟨found, s₁, rfl, ?_⟩
  unfold planIncremental
  rw [hfound]
  simp only
  cases hcached : found.filter fun snapshot => !snapshot.fingerprints.isEmpty with
  | none => exact .inl ⟨_, s₁, rfl, .inl rfl⟩
  | some cached =>
      obtain ⟨hfound, hsome⟩ := Option.filter_eq_some_iff.1 hcached
      simp only
      cases hswept : w.withMetadataConnection s₁.clock
          (w.schemaFingerprints s₁.clock s₁.refreshScopeFor) with
      | ok swept =>
          obtain rfl := call_eq_ok (withMetadataConnection_eq_ok hswept)
          exact .inr (.inr ⟨cached, hfound, by simpa using hsome, rfl⟩)
      | error error =>
          cases error with
          | queryFailed => exact .inl ⟨_, _, rfl, .inr rfl⟩
          | notConnected => exact .inl ⟨_, _, rfl, .inr rfl⟩
          | startupFailed => exact .inr (.inl ⟨_, rfl⟩)
          | shutdownFailed => exact .inr (.inl ⟨_, rfl⟩)
          | connectionNotFound => exact .inr (.inl ⟨_, rfl⟩)

/-- A sweep finds nothing, speaks for reading all, or leads to a splice. -/
theorem planSweep_cases (w : World Id) (cached : SchemaSnapshot Id)
    (swept : List SchemaFingerprint) :
    ((diffFingerprints cached.fingerprints swept).isEmpty = true ∧
      planSweep w cached swept = .unchanged cached) ∨
    (∃ reason, planSweep w cached swept = .fullRefresh reason) ∨
    ∃ schemas, planSweep w cached swept = .splice cached swept
        (diffFingerprints cached.fingerprints swept) schemas ∧
      (diffFingerprints cached.fingerprints swept).added = [] ∧
      touchedSchemas w.ids w.connectionId cached.objects
        (diffFingerprints cached.fingerprints swept).changed = some schemas := by
  unfold planSweep
  simp only
  split_ifs with hempty hadded hmany
  · exact .inl ⟨hempty, rfl⟩
  · exact .inr (.inl ⟨_, rfl⟩)
  · exact .inr (.inl ⟨_, rfl⟩)
  · right
    cases hschemas : touchedSchemas w.ids w.connectionId cached.objects
        (diffFingerprints cached.fingerprints swept).changed with
    | none => exact .inl ⟨_, rfl⟩
    | some schemas => exact .inr ⟨schemas, rfl, by simpa using hadded, rfl⟩

/-- An incremental refresh over `scope` splices `cached`, re-reading
`schemas`. -/
def Splices (w : World Id) (s : State Id) (scope : SchemaScope)
    (cached : SchemaSnapshot Id) (schemas : List String) : Prop :=
  ∃ swept delta t, planIncremental w s = (.splice cached swept delta schemas, t) ∧
    scope = t.refreshScopeFor

/-- What leads to a splice. -/
theorem Splices.spec {schemas : List String}
    (h : Splices w s scope cached schemas) :
    ∃ s₁, s.cachedSnapshot w = (some cached, s₁) ∧
      scope = s₁.refreshScopeFor ∧ cached.fingerprints ≠ [] ∧
      (diffFingerprints cached.fingerprints
        (w.sweep s₁.clock scope)).added = [] ∧
      touchedSchemas w.ids w.connectionId cached.objects
        (diffFingerprints cached.fingerprints
          (w.sweep s₁.clock scope)).changed = some schemas := by
  obtain ⟨swept, delta, t, hsplice, rfl⟩ := h
  obtain ⟨found, s₁, hfound, hplan⟩ := planIncremental_cases w s
  rcases hplan with ⟨reason, t', hplan, -⟩ | ⟨error, hplan⟩ |
    ⟨known, hknown, hsome, hplan⟩
  · simp [hplan] at hsplice
  · simp [hplan] at hsplice
  · rcases planSweep_cases w known (w.sweep s₁.clock s₁.refreshScopeFor) with
      ⟨-, hsweep⟩ | ⟨reason, hsweep⟩ | ⟨names, hsweep, hadded, hschemas⟩ <;>
      rw [hplan, hsweep] at hsplice <;>
      simp only [Prod.mk.injEq, IncrementalPlan.splice.injEq,
        reduceCtorEq, false_and] at hsplice
    obtain ⟨⟨rfl, -, -, rfl⟩, rfl⟩ := hsplice
    exact ⟨s₁, hknown ▸ hfound, rfl, hsome, hadded, hschemas⟩

/-- An incremental refresh reads all, fails, leaves what it has or splices. -/
theorem refreshIncremental_cases (w : World Id) (s : State Id) :
    ∃ found s₁, s.cachedSnapshot w = (found, s₁) ∧
      ((∃ reason t, planIncremental w s = (.fullRefresh reason, t) ∧
          (t = s₁ ∨ t = s₁.wait 1) ∧ refreshIncremental w s
            = fullRefreshFallback w reason t.refreshScopeFor t) ∨
        (∃ error count, refreshIncremental w s
          = (.error error, s₁.wait count)) ∨
        ∃ cached, found = some cached ∧ cached.fingerprints ≠ [] ∧
          let swept := w.sweep s₁.clock s₁.refreshScopeFor
          let delta := diffFingerprints cached.fingerprints swept
          (delta.isEmpty = true ∧
            refreshIncremental w s = (.ok (cached, .unchanged), s₁.wait 1)) ∨
          ∃ schemas snapshot, Splices w s s₁.refreshScopeFor cached schemas ∧
            refreshIncremental w s
              = (.ok (snapshot, .incremental schemas.length delta.touched),
                (s₁.wait (1 + schemas.length)).install w snapshot) ∧
            snapshot.objects
              = w.spliced s₁.clock s₁.refreshScopeFor cached schemas ∧
            snapshot.fingerprints = swept.map fingerprintRecord) := by
  obtain ⟨found, s₁, hfound, hplan⟩ := planIncremental_cases w s
  refine ⟨found, s₁, hfound, ?_⟩
  rcases hplan with ⟨reason, t, hplan, ht⟩ | ⟨error, hplan⟩ |
    ⟨cached, hcached, hsome, hplan⟩
  · exact .inl ⟨reason, t, hplan, ht, by simp [refreshIncremental, hplan]⟩
  · exact .inr (.inl ⟨error, 1, by simp [refreshIncremental, hplan]⟩)
  · rcases planSweep_cases w cached (w.sweep s₁.clock s₁.refreshScopeFor) with
      ⟨hempty, hsweep⟩ | ⟨reason, hsweep⟩ | ⟨schemas, hsweep, -, -⟩ <;>
      rw [hsweep] at hplan
    · exact .inr (.inr ⟨cached, hcached, hsome, .inl
        ⟨hempty, by simp [refreshIncremental, hplan]⟩⟩)
    · exact .inl ⟨reason, _, hplan, .inr rfl, by
        simp [refreshIncremental, hplan]⟩
    · cases hreread : reread w (s₁.clock + 1) schemas with
      | error error =>
          exact .inr (.inl ⟨error, 1 + schemas.length, by
            simp [refreshIncremental, hplan, State.wait, hreread, Nat.add_assoc]⟩)
      | ok entries =>
          right; right
          refine ⟨cached, hcached, hsome, .inr ⟨schemas, ?_⟩⟩
          refine ⟨splicedSnapshot w (s₁.clock + 1) cached
            (w.sweep s₁.clock s₁.refreshScopeFor)
            (diffFingerprints cached.fingerprints
              (w.sweep s₁.clock s₁.refreshScopeFor)) schemas entries,
            ⟨_, _, _, hplan, rfl⟩, ?_, ?_, rfl⟩
          · simp [refreshIncremental, hplan, State.wait, hreread, Nat.add_assoc]
          · rw [splicedSnapshot, reread_eq_ok hreread]
            rfl

/-! ## Steady calls -/

/-- The call reads all of `scope`, from instant `i` on. -/
def FullReads (w : World Id) (s : State Id) :
    Call → Nat → SchemaScope → Prop
  | .refreshScope scope, i, scope' => i = s.clock ∧ scope' = scope
  | .refresh, i, scope' => i = s.clock ∧ scope' = s.refreshScopeFor
  | .refreshIncremental, i, scope' => ∃ reason t,
      planIncremental w s = (.fullRefresh reason, t) ∧ i = t.clock ∧
        scope' = t.refreshScopeFor
  | _, _, _ => False

/-- The sweep of a full read at instant `i` sees the objects that it has read,
in the same versions. -/
def World.SweepsRead (w : World Id) (i : Nat) (scope : SchemaScope) : Prop :=
  ∀ f, f ∈ w.sweep i scope ↔ f ∈ w.sweep (i + 2) scope

/-- Full reads sweep what they have read; splices re-read every altered object,
and nothing but swept objects, where the sweep saw it. -/
structure Steady (w : World Id) (s : State Id) (call : Call) : Prop where
  sweepsRead : ∀ i scope, FullReads w s call i scope → w.SweepsRead i scope
  alteredReread : call = .refreshIncremental → ∀ scope cached schemas,
    Splices w s scope cached schemas →
      w.AlteredReread s.clock scope cached schemas
  findsSwept : call = .refreshIncremental → ∀ scope cached schemas,
    Splices w s scope cached schemas → w.FindsSwept s.clock scope schemas
  staysPut : call = .refreshIncremental → ∀ scope cached schemas,
    Splices w s scope cached schemas → w.StaysPut s.clock scope schemas

/-! ## The invariant -/

/-- A snapshot has no fingerprints, or tracks the server. -/
def Good (w : World Id) (t : Nat) (snapshot : SchemaSnapshot Id) : Prop :=
  snapshot.fingerprints = [] ∨ Tracks w t snapshot

omit [DecidableEq Id] in
theorem Good.mono {t t' : Nat} (h : Good w t snapshot) (ht : t ≤ t') :
    Good w t' snapshot :=
  h.imp_right fun htracks => htracks.mono ht

/-- What is in memory and on disk is good. -/
structure Ready (w : World Id) (s : State Id) : Prop where
  snapshot : ∀ snapshot, s.snapshot = some snapshot → Good w s.clock snapshot
  cache : ∀ snapshot, s.cache = some snapshot → Good w s.clock snapshot

omit [DecidableEq Id] in
theorem ready_fresh (w : World Id) : Ready w State.fresh := by
  constructor <;> rintro _ ⟨⟩

omit [DecidableEq Id] in
theorem Ready.wait (h : Ready w s) (count : Nat) : Ready w (s.wait count) where
  snapshot _ hsnapshot := (h.snapshot _ hsnapshot).mono (Nat.le_add_right _ _)
  cache _ hcache := (h.cache _ hcache).mono (Nat.le_add_right _ _)

omit [DecidableEq Id] in
theorem Ready.withScope (h : Ready w s) (scope : Option SchemaScope) :
    Ready w { s with scope := scope } where
  snapshot := h.snapshot
  cache := h.cache

omit [DecidableEq Id] in
theorem Ready.install (h : Ready w s) (hgood : Good w s.clock snapshot) :
    Ready w (s.install w snapshot) := by
  constructor
  · intro old hold
    rw [State.install_snapshot] at hold
    obtain rfl := Option.some.inj hold
    rw [State.install_clock]
    exact hgood
  · intro old hold
    rw [State.install_clock]
    rcases s.install_cache (w := w) snapshot with hnew | hsame
    · obtain rfl := Option.some.inj (hnew.symm.trans hold)
      exact hgood
    · exact h.cache old (hsame ▸ hold)

omit [DecidableEq Id] in
theorem Ready.load (h : Ready w s) (hgood : Good w s.clock snapshot) :
    Ready w { s with snapshot := some snapshot } := by
  refine ⟨?_, h.cache⟩
  rintro _ ⟨⟩
  exact hgood

omit [DecidableEq Id] in
theorem Ready.loadCached (h : Ready w s) : Ready w (s.loadCached w).2 := by
  rcases s.loadCached_cases (w := w) with hnone | ⟨snapshot, hcache, hload⟩
  · rw [hnone]
    exact h
  · rw [hload]
    exact h.load (h.cache snapshot hcache)

omit [DecidableEq Id] in
/-- An incremental refresh starts from a good snapshot. -/
theorem Ready.cachedSnapshot (h : Ready w s)
    {found : Option (SchemaSnapshot Id)} {s₁ : State Id}
    (hfound : s.cachedSnapshot w = (found, s₁)) :
    Ready w s₁ ∧ s₁.clock = s.clock ∧
      ∀ cached, found = some cached → Good w s.clock cached ∧
        s₁.snapshot = some cached := by
  rcases s.cachedSnapshot_cases (w := w) with hnone | ⟨snapshot, hin, hsome⟩
  · obtain ⟨rfl, rfl⟩ := Prod.mk.inj (hnone.symm.trans hfound)
    exact ⟨h, rfl, by simp⟩
  · obtain ⟨rfl, rfl⟩ := Prod.mk.inj (hsome.symm.trans hfound)
    have hgood : Good w s.clock snapshot :=
      hin.elim (h.snapshot snapshot) (h.cache snapshot)
    refine ⟨h.load hgood, rfl, ?_⟩
    rintro _ ⟨⟩
    exact ⟨hgood, rfl⟩

omit [DecidableEq Id] in
/-- A full refresh that sweeps what it has read keeps the invariant. -/
theorem Ready.refreshScope (h : Ready w s) (hversions : w.VersionsTrack)
    (hsame : w.SweepsRead s.clock scope) :
    Ready w (SchemaService.refreshScope w scope s).2 := by
  rcases refreshScope_cases w scope s with
    ⟨error, hfail⟩ | ⟨snapshot, hok, hobjects, hfingerprints⟩
  · rw [hfail]
    exact h.wait 3
  · rw [hok]
    refine ((h.wait 3).withScope _).install ?_
    rcases hfingerprints with hnone | hswept
    · exact .inl hnone
    · right
      exact tracks_of_introspect hversions (by simp [State.wait]) hobjects hswept
        hsame

/-- A splice is one of a snapshot that tracks the server. -/
theorem Ready.splicing (h : Ready w s) {schemas : List String}
    (hsplices : Splices w s scope cached schemas) :
    Splicing w s.clock scope cached schemas := by
  obtain ⟨s₁, hfound, rfl, hsome, hadded, hschemas⟩ := hsplices.spec
  obtain ⟨-, hclock, hgood⟩ := h.cachedSnapshot hfound
  obtain ⟨hgood, -⟩ := hgood cached rfl
  rw [← hclock] at hgood ⊢
  exact ⟨hgood.resolve_left hsome, hadded, hschemas⟩

/-- A steady incremental refresh keeps the invariant. -/
theorem Ready.refreshIncremental (h : Ready w s) (hversions : w.VersionsTrack)
    (hsteady : Steady w s .refreshIncremental) :
    Ready w (SchemaService.refreshIncremental w s).2 := by
  obtain ⟨found, s₁, hfound, hcases⟩ := refreshIncremental_cases w s
  obtain ⟨hready, hclock, -⟩ := h.cachedSnapshot hfound
  rcases hcases with ⟨reason, t, hplan, ht, hrefresh⟩ | ⟨error, count, hfail⟩ |
    ⟨cached, hcached, hsome, ⟨-, hunchanged⟩ |
      ⟨schemas, snapshot, hsplices, hok, hobjects, hfingerprints⟩⟩
  · have ht_ready : Ready w t := by
      rcases ht with rfl | rfl
      · exact hready
      · exact hready.wait 1
    have hread := hsteady.sweepsRead t.clock t.refreshScopeFor
      ⟨reason, t, hplan, rfl, rfl⟩
    have hnext := ht_ready.refreshScope hversions hread
    rw [hrefresh, fullRefreshFallback]
    rcases hscope : SchemaService.refreshScope w t.refreshScopeFor t with
      ⟨result, t'⟩
    rw [hscope] at hnext
    cases result <;> exact hnext
  · rw [hfail]
    exact hready.wait count
  · rw [hunchanged]
    exact hready.wait 1
  · rw [hclock] at hobjects hfingerprints
    have htracks := (h.splicing hsplices).tracks_spliced
      (hsteady.findsSwept rfl _ _ _ hsplices) hversions
      (hsteady.alteredReread rfl _ _ _ hsplices)
      (hsteady.staysPut rfl _ _ _ hsplices) hobjects hfingerprints
    rw [hok]
    refine (hready.wait _).install (.inr (htracks.mono ?_))
    simp [State.wait, hclock, Nat.add_assoc]

/-- Every steady call keeps the invariant. -/
theorem Ready.perform (h : Ready w s) (hversions : w.VersionsTrack)
    {call : Call} (hsteady : Steady w s call) :
    Ready w (SchemaService.perform w s call) := by
  cases call with
  | refreshScope scope =>
      exact h.refreshScope hversions (hsteady.sweepsRead _ _ ⟨rfl, rfl⟩)
  | refresh => exact h.refreshScope hversions (hsteady.sweepsRead _ _ ⟨rfl, rfl⟩)
  | refreshIncremental => exact h.refreshIncremental hversions hsteady
  | loadCached => exact h.loadCached
  | restart => exact ⟨by rintro _ ⟨⟩, h.cache⟩

/-- In runs of steady calls the invariant holds throughout. -/
theorem ready_of_reachable (hversions : w.VersionsTrack)
    (h : ((service w).restrict (Steady w)).Reachable s) : Ready w s := by
  refine h.invariant (I := Ready w) ?_ ?_
  · rintro _ rfl
    exact ready_fresh w
  · rintro s call t ⟨hstep, hsteady⟩ hready
    obtain rfl := Option.some.inj hstep
    exact hready.perform hversions hsteady

end Tempr.Services.SchemaService
