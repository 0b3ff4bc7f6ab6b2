import Tempr.Services.SchemaCalls

/-!
# Steps of the calls

What one step of a call does to the snapshots in memory, to the copies on disk
and to the call itself, once for all phases.
-/

namespace Tempr.Services.SchemaCalls

open Tempr.Support SchemaService

variable {Id : Type} [DecidableEq Id]

/-- The snapshot that the next step of a call inserts. -/
def Phase.insertion : Phase Id → Option (SchemaSnapshot Id)
  | .inserting copy _ => some copy
  | .installing _ snapshot _ _ => some snapshot
  | _ => none

/-- The snapshots once `insertion` is made for a connection. -/
def State.holding (s : State Id) (connection : ConnectionId)
    (insertion : Option (SchemaSnapshot Id)) :
    ConnectionId → Option (SchemaSnapshot Id) :=
  match insertion with
  | some snapshot => Function.update s.snapshots connection (some snapshot)
  | none => s.snapshots

/-- The snapshot that a refresh counts from, once it has read it. -/
def Phase.base : Phase Id → Option (Option (SchemaSnapshot Id))
  | .scoping (.sweep (some cached)) => some (some cached)
  | .presuming (.sweep (some cached)) => some (some cached)
  | .sweeping cached _ => some (some cached)
  | .rereading cached _ _ _ _ _ => some (some cached)
  | .installing base _ _ _ => some base
  | _ => none

/-- Whether the next step reads the snapshot that the call then counts from: a
copy from disk is in memory once it is inserted. -/
def Phase.readsBase : Phase Id → Bool
  | .looking => true
  | .inserting _ _ => true
  | .numbering _ _ _ => true
  | _ => false

/-- Whether the call has inserted a new snapshot and still has it. -/
def Phase.hasInserted : Phase Id → Bool
  | .remembering _ _ _ => true
  | .comparing _ _ => true
  | .saving _ _ => true
  | .publishing _ _ => true
  | _ => false

/-- A snapshot about to be installed has the version after its base's. -/
def Phase.Numbered : Phase Id → Prop
  | .installing base snapshot _ _ => snapshot.version = nextVersion base
  | _ => True

/-- What a step that takes a call to `phase` does beside moving the call. -/
structure Effect (s t : State Id) (call : Call Id) (phase : Phase Id) :
    Prop where
  snapshots : t.snapshots = s.holding call.connection call.phase.insertion
  numbered : phase.Numbered
  /-- the copies on disk are written by calls that have inserted -/
  caches : t.caches = s.caches ∨ call.phase.hasInserted = true ∧
    ∀ connection, connection ≠ call.connection →
      t.caches connection = s.caches connection
  inserted : phase.hasInserted = true → call.phase.hasInserted = true ∨
    ∃ base snapshot scope path,
      call.phase = .installing base snapshot scope path
  copied : ∀ copy incremental, phase = .inserting copy incremental →
    t.caches call.connection = some copy
  based : ∀ base, phase.base = some base → call.phase.base = some base ∨
    call.phase.readsBase = true ∧ t.snapshots call.connection = base

section Steps

variable {worlds : ConnectionId → World Id} {w : World Id} {s t : State Id}
  {i : Nat} {call : Call Id}

omit [DecidableEq Id] in
/-- A step to a phase without a part in it. -/
theorem Effect.of_plain {phase : Phase Id}
    (hsnapshots : t.snapshots = s.holding call.connection call.phase.insertion)
    (hcaches : t.caches = s.caches)
    (hinserted : phase.hasInserted = true → call.phase.hasInserted = true)
    (hinsertion : phase.insertion = none)
    (hbase : ∀ base, phase.base = some base → call.phase.base = some base ∨
      call.phase.readsBase = true ∧ t.snapshots call.connection = base) :
    Effect s t call phase where
  snapshots := hsnapshots
  numbered := by cases phase <;> trivial
  caches := .inl hcaches
  inserted h := .inl (hinserted h)
  copied := by
    rintro copy incremental rfl
    cases hinsertion
  based := hbase

omit [DecidableEq Id] in
/-- A phase before the insertion, and one that counts from nothing. -/
theorem Effect.of_quiet {phase : Phase Id}
    (hsnapshots : t.snapshots = s.holding call.connection call.phase.insertion)
    (hcaches : t.caches = s.caches) (hinserted : phase.hasInserted = false)
    (hinsertion : phase.insertion = none)
    (hbase : ∀ base, phase.base = some base → call.phase.base = some base ∨
      call.phase.readsBase = true ∧ t.snapshots call.connection = base) :
    Effect s t call phase := by
  refine .of_plain hsnapshots hcaches (fun h => ?_) hinsertion hbase
  rw [hinserted] at h
  cases h

omit [DecidableEq Id] in
theorem Effect.of_baseless {phase : Phase Id}
    (hsnapshots : t.snapshots = s.holding call.connection call.phase.insertion)
    (hcaches : t.caches = s.caches)
    (hinserted : phase.hasInserted = true → call.phase.hasInserted = true)
    (hinsertion : phase.insertion = none) (hbase : phase.base = none) :
    Effect s t call phase := by
  refine .of_plain hsnapshots hcaches hinserted hinsertion fun base h => ?_
  rw [hbase] at h
  cases h

omit [DecidableEq Id] in
theorem loaded_plain (copy : Option (SchemaSnapshot Id)) (incremental : Bool) :
    (loaded copy incremental).hasInserted = false ∧
      (loaded copy incremental).insertion = none ∧
      ∀ base, (loaded copy incremental).base = some base → copy = base := by
  cases incremental with
  | false => exact ⟨rfl, rfl, fun base h => by cases h⟩
  | true =>
      refine ⟨rfl, rfl, fun base h => ?_⟩
      cases copy with
      | none => cases h
      | some copy => exact Option.some.inj h

omit [DecidableEq Id] in
theorem Purpose.base_eq (purpose : Purpose Id)
    {base : Option (SchemaSnapshot Id)}
    (h : (Phase.presuming purpose).base = some base) :
    (Phase.scoping purpose).base = some base := by
  cases purpose with
  | refresh => cases h
  | sweep cached => cases cached <;> exact h

omit [DecidableEq Id] in
theorem withScope_plain (purpose : Purpose Id) (scope : SchemaScope) :
    (withScope purpose scope).hasInserted = false ∧
      (withScope purpose scope).insertion = none ∧
      ∀ base, (withScope purpose scope).base = some base →
        ∃ cached, base = some cached ∧ purpose = .sweep (some cached) := by
  unfold withScope
  split
  · exact ⟨rfl, rfl, fun base h => by cases h⟩
  · split
    · next hcached =>
        refine ⟨rfl, rfl, fun base h => ?_⟩
        obtain rfl := Option.some.inj h
        rw [(Option.filter_eq_some_iff.1 hcached).1]
        exact ⟨_, rfl, rfl⟩
    · exact ⟨rfl, rfl, fun base h => by cases h⟩

theorem planSweep_cached {cached cached' : SchemaSnapshot Id}
    {sweep sweep' : List SchemaFingerprint} {delta : SchemaDelta}
    {schemas : List String}
    (h : planSweep w cached sweep = .splice cached' sweep' delta schemas) :
    cached' = cached := by
  simp only [planSweep] at h
  split at h
  · cases h
  · split at h
    · cases h
    · split at h
      · cases h
      · split at h
        · cases h
        · cases h
          rfl

theorem swept_plain (cached : SchemaSnapshot Id) (scope : SchemaScope)
    (reply : Except ServiceError (List SchemaFingerprint)) :
    (swept w cached scope reply).hasInserted = false ∧
      (swept w cached scope reply).insertion = none ∧
      ∀ base, (swept w cached scope reply).base = some base →
        base = some cached := by
  unfold swept
  split
  · split
    · exact ⟨rfl, rfl, fun base h => by cases h⟩
    · exact ⟨rfl, rfl, fun base h => by cases h⟩
    · next hplan =>
        refine ⟨rfl, rfl, fun base h => ?_⟩
        obtain rfl := Option.some.inj h
        rw [planSweep_cached hplan]
    · exact ⟨rfl, rfl, fun base h => by cases h⟩
  · exact ⟨rfl, rfl, fun base h => by cases h⟩
  · exact ⟨rfl, rfl, fun base h => by cases h⟩
  · exact ⟨rfl, rfl, fun base h => by cases h⟩

omit [DecidableEq Id] in
/-- A copy that is loaded is the one on disk. -/
theorem caches_of_loadedCopy {copy : SchemaSnapshot Id}
    (h : loadedCopy w s = some copy) :
    s.caches w.connectionId = some copy := by
  rw [loadedCopy] at h
  split at h
  · cases h
  · exact (Option.filter_eq_some_iff.1 h).1

/-- A step of a call moves that call, with the effect of its phase. -/
theorem advance_eq (hw : w.connectionId = call.connection)
    (h : advance w s i call = some t) :
    ∃ phase, t.calls = Function.update s.calls i (some { call with phase }) ∧
      Effect s t call phase := by
  obtain ⟨connection, current⟩ := call
  subst hw
  cases current with
  | loading incremental =>
      obtain rfl := Option.some.inj h
      refine ⟨_, rfl, ?_⟩
      cases hcopy : loadedCopy w s with
      | none =>
          obtain ⟨hinserted, hinsertion, hbase⟩ :=
            @loaded_plain Id none incremental
          refine .of_quiet rfl rfl hinserted hinsertion fun base h => ?_
          obtain rfl := hbase base h
          cases incremental <;> cases h
      | some copy =>
          refine ⟨rfl, trivial, .inl rfl, (fun h => by cases h), ?_,
            fun base h => by cases h⟩
          rintro copy' incremental' hphase
          obtain ⟨rfl, -⟩ := Phase.inserting.inj hphase
          exact caches_of_loadedCopy hcopy
  | inserting copy incremental =>
      -- from here the call counts from the copy that it has just inserted
      obtain rfl := Option.some.inj h
      obtain ⟨hinserted, hinsertion, hbase⟩ := loaded_plain (some copy) incremental
      refine ⟨_, rfl, .of_quiet rfl rfl hinserted hinsertion fun base h =>
        .inr ⟨rfl, ?_⟩⟩
      rw [← hbase base h]
      exact Function.update_self ..
  | looking =>
      obtain rfl := Option.some.inj h
      refine ⟨_, rfl, ?_⟩
      cases hheld : s.snapshots w.connectionId with
      | none => exact .of_baseless rfl rfl (fun h => by cases h) rfl rfl
      | some snapshot =>
          refine .of_quiet rfl rfl rfl rfl fun base h => ?_
          obtain rfl := Option.some.inj h
          exact .inr ⟨rfl, hheld⟩
  | scoping purpose =>
      obtain rfl := Option.some.inj h
      refine ⟨_, rfl, ?_⟩
      cases s.scopes w.connectionId with
      | none => exact .of_quiet rfl rfl rfl rfl fun base h => .inl (purpose.base_eq h)
      | some scope =>
          obtain ⟨hinserted, hinsertion, hbase⟩ := withScope_plain purpose scope
          refine .of_quiet rfl rfl hinserted hinsertion fun base h => ?_
          obtain ⟨cached, rfl, rfl⟩ := hbase base h
          exact .inl rfl
  | presuming purpose =>
      obtain rfl := Option.some.inj h
      obtain ⟨hinserted, hinsertion, hbase⟩ := withScope_plain purpose
        (if (s.snapshots w.connectionId).isSome then .all else .searchPath)
      refine ⟨_, rfl, .of_quiet rfl rfl hinserted hinsertion fun base h => ?_⟩
      obtain ⟨cached, rfl, rfl⟩ := hbase base h
      exact .inl rfl
  | sweeping cached scope =>
      obtain rfl := Option.some.inj h
      obtain ⟨hinserted, hinsertion, hbase⟩ := swept_plain (w := w) cached scope
        (w.withMetadataConnection s.clock (w.schemaFingerprints s.clock scope))
      refine ⟨_, rfl, .of_quiet rfl rfl hinserted hinsertion fun base h => ?_⟩
      obtain rfl := hbase base h
      exact .inl rfl
  | rereading cached sweep delta schemas left entries =>
      cases left with
      | nil =>
          -- a splice counts from the snapshot it splices into
          obtain rfl := Option.some.inj h
          exact ⟨_, rfl, rfl, rfl, .inl rfl, (fun h => by cases h),
            (fun _ _ h => by cases h), fun base h => .inl h⟩
      | cons schema left =>
          obtain rfl := Option.some.inj h
          refine ⟨_, rfl, ?_⟩
          split
          · exact .of_quiet rfl rfl rfl rfl fun base h => .inl h
          · exact .of_baseless rfl rfl (fun h => by cases h) rfl rfl
  | reading scope path =>
      obtain rfl := Option.some.inj h
      refine ⟨_, rfl, ?_⟩
      split
      · exact .of_quiet rfl rfl rfl rfl fun base h => by cases h
      · exact .of_baseless rfl rfl (fun h => by cases h) rfl rfl
  | numbering scope read path =>
      -- a full read counts from the snapshot in memory
      obtain rfl := Option.some.inj h
      refine ⟨_, rfl, rfl, rfl, .inl rfl, (fun h => by cases h),
        (fun _ _ h => by cases h), fun base h => ?_⟩
      exact .inr ⟨rfl, Option.some.inj h⟩
  | installing base snapshot scope path =>
      obtain rfl := Option.some.inj h
      refine ⟨_, rfl, ?_⟩
      cases scope with
      | some scope =>
          exact ⟨rfl, trivial, .inl rfl, fun _ => .inr ⟨_, _, _, _, rfl⟩,
            (fun _ _ h => by cases h), fun base h => by cases h⟩
      | none =>
          exact ⟨rfl, trivial, .inl rfl, fun _ => .inr ⟨_, _, _, _, rfl⟩,
            (fun _ _ h => by cases h), fun base h => by cases h⟩
  | remembering scope snapshot path =>
      obtain rfl := Option.some.inj h
      exact ⟨_, rfl, .of_baseless rfl rfl (fun _ => rfl) rfl rfl⟩
  | comparing snapshot path =>
      obtain rfl := Option.some.inj h
      refine ⟨_, rfl, ?_⟩
      split
      · exact .of_baseless rfl rfl (fun _ => rfl) rfl rfl
      · exact .of_baseless rfl rfl (fun _ => rfl) rfl rfl
  | saving snapshot path =>
      -- the only step that writes to the disk
      obtain rfl := Option.some.inj h
      refine ⟨_, rfl, rfl, trivial, .inr ⟨rfl, fun connection hne => ?_⟩,
        fun _ => .inl rfl, (fun _ _ h => by cases h), fun base h => by cases h⟩
      change (if w.saveFails s.clock then s.caches
        else Function.update s.caches w.connectionId (some snapshot)) connection = _
      split
      · rfl
      · exact Function.update_of_ne hne ..
  | publishing snapshot path =>
      obtain rfl := Option.some.inj h
      exact ⟨_, rfl, .of_baseless rfl rfl (fun h => by cases h) rfl rfl⟩
  | finished reply => cases h

/-- A step starts a call, or is a step of a call. -/
theorem next_cases {a : Action} (h : next worlds s a = some t) :
    (∃ i connection request, a = .start i connection request ∧
      s.calls i = none ∧
      t.calls = Function.update s.calls i
        (some ⟨connection, firstPhase request⟩) ∧
      t.snapshots = s.snapshots ∧ t.caches = s.caches) ∨
    ∃ i call phase, a = .advance i ∧ s.calls i = some call ∧
      t.calls = Function.update s.calls i (some { call with phase }) ∧
      Effect s t call phase := by
  cases a with
  | start i connection request =>
      left
      simp only [next] at h
      split at h
      · obtain rfl := Option.some.inj h
        exact ⟨i, connection, request, rfl, ‹_›, rfl, rfl, rfl⟩
      · cases h
  | advance i =>
      obtain ⟨call, hcall, hstep⟩ := Option.bind_eq_some_iff.1 h
      obtain ⟨u, hu, rfl⟩ := Option.map_eq_some_iff.1 hstep
      obtain ⟨phase, hcalls, heffect⟩ := advance_eq rfl hu
      exact .inr ⟨i, call, phase, rfl, hcall, hcalls, heffect.snapshots,
        heffect.numbered, heffect.caches, heffect.inserted, heffect.copied,
        heffect.based⟩

end Steps

end Tempr.Services.SchemaCalls
