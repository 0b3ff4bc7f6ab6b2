import Tempr.Services.SnapshotVersions

/-!
# Where the snapshots of the calls come from and go

A call carries the snapshots that it has read or made. What it inserts it
publishes later, and a call that inserts nothing returns the snapshot that it has
read in memory.
-/

namespace Tempr.Services.SchemaCalls

open Tempr.Support SchemaService

variable {Id : Type}

/-! ## What calls return and publish -/

/-- The snapshot that a call has inserted and is still to publish. -/
def Phase.publishes : Phase Id → Option (SchemaSnapshot Id)
  | .remembering _ snapshot _ => some snapshot
  | .comparing snapshot _ => some snapshot
  | .saving snapshot _ => some snapshot
  | .publishing snapshot _ => some snapshot
  | _ => none

def Purpose.promised : Purpose Id → Option (SchemaSnapshot Id)
  | .sweep cached => cached
  | .refresh => none

/-- The snapshot that a call returns if it inserts no other. -/
def Phase.promised : Phase Id → Option (SchemaSnapshot Id)
  | .scoping purpose => purpose.promised
  | .presuming purpose => purpose.promised
  | .sweeping cached _ => some cached
  | .remembering _ snapshot _ => some snapshot
  | .comparing snapshot _ => some snapshot
  | .saving snapshot _ => some snapshot
  | .publishing snapshot _ => some snapshot
  | .finished (.ok (snapshot, _)) => snapshot
  | _ => none

def Purpose.snapshots : Purpose Id → List (SchemaSnapshot Id)
  | .sweep cached => cached.toList
  | .refresh => []

def Phase.isFinished : Phase Id → Bool
  | .finished _ => true
  | _ => false

theorem Phase.eq_finished {phase : Phase Id} (h : phase.isFinished = true) :
    ∃ reply, phase = .finished reply := by
  cases phase with
  | finished reply => exact ⟨reply, rfl⟩
  | _ => cases h

/-- The snapshots that a call carries. -/
def Phase.snapshots : Phase Id → List (SchemaSnapshot Id)
  | .inserting copy _ => [copy]
  | .scoping purpose => purpose.snapshots
  | .presuming purpose => purpose.snapshots
  | .sweeping cached _ => [cached]
  | .rereading cached _ _ _ _ _ => [cached]
  | .installing _ snapshot _ _ => [snapshot]
  | .remembering _ snapshot _ => [snapshot]
  | .comparing snapshot _ => [snapshot]
  | .saving snapshot _ => [snapshot]
  | .publishing snapshot _ => [snapshot]
  | .finished (.ok (snapshot, _)) => snapshot.toList
  | _ => []

variable [DecidableEq Id]

/-- The snapshot that the next step of a call makes. -/
def made (w : World Id) (s : State Id) (call : Call Id) :
    Option (SchemaSnapshot Id) :=
  match call.phase with
  | .rereading cached swept delta schemas [] entries =>
      some (splicedSnapshot w s.clock cached swept delta schemas entries)
  | .numbering _ read _ =>
      some (readSnapshot w s.clock (s.snapshots call.connection) read)
  | _ => none

section Steps

variable {w : World Id} {s t : State Id} {i : Nat} {call : Call Id}
  {x : SchemaSnapshot Id}

theorem made_id (h : made w s call = some x) : x.id = w.snapshotId s.clock := by
  unfold made at h
  split at h
  · obtain rfl := Option.some.inj h
    rfl
  · obtain rfl := Option.some.inj h
    rfl
  · cases h

omit [DecidableEq Id] in
theorem promised_loaded (copy : Option (SchemaSnapshot Id))
    (incremental : Bool) : (loaded copy incremental).promised = copy := by
  cases incremental <;> rfl

omit [DecidableEq Id] in
theorem promised_withScope {purpose : Purpose Id} {scope : SchemaScope}
    (h : (withScope purpose scope).promised = some x) :
    purpose.promised = some x := by
  unfold withScope at h
  split at h
  · cases h
  · split at h
    · next hcached =>
        obtain rfl := Option.some.inj h
        exact (Option.filter_eq_some_iff.1 hcached).1
    · cases h

theorem promised_swept {cached : SchemaSnapshot Id} {scope : SchemaScope}
    {reply : Except ServiceError (List SchemaFingerprint)}
    (h : (swept w cached scope reply).promised = some x) : cached = x := by
  unfold swept at h
  split at h
  · rename_i found
    rcases planSweep_cases w cached found with ⟨-, hplan⟩ | ⟨reason, hplan⟩ |
      ⟨schemas, hplan, -⟩ <;> rw [hplan] at h
    · exact Option.some.inj h
    · cases h
    · cases h
  · cases h
  · cases h
  · cases h

omit [DecidableEq Id] in
theorem goto_calls (phase : Phase Id) {call' : Call Id}
    (h : (s.goto i call phase).calls i = some call') :
    call' = { call with phase } := by
  have hself : (s.goto i call phase).calls i = some { call with phase } :=
    Function.update_self ..
  exact Option.some.inj (h.symm.trans hself)

/-- What a call promises after a step it has promised before, or it is in memory
now. -/
theorem promised_advance {call' : Call Id} (h : advance w s i call = some t)
    (hcall' : t.calls i = some call') (hx : call'.phase.promised = some x) :
    call.phase.promised = some x ∨ t.snapshots call.connection = some x := by
  unfold advance at h
  split at h <;> rename_i hphase <;> rw [hphase]
  · obtain rfl := Option.some.inj h
    obtain rfl := goto_calls _ hcall'
    dsimp only at hx
    split at hx
    · cases hx
    · rw [promised_loaded] at hx
      cases hx
  · -- the copy is inserted and returned
    obtain rfl := Option.some.inj h
    obtain rfl := goto_calls _ hcall'
    rw [promised_loaded] at hx
    exact .inr ((Function.update_self ..).trans hx)
  · -- memory is read
    obtain rfl := Option.some.inj h
    obtain rfl := goto_calls _ hcall'
    dsimp only at hx
    split at hx
    · next hheld => exact .inr (hheld.trans hx)
    · cases hx
  · obtain rfl := Option.some.inj h
    obtain rfl := goto_calls _ hcall'
    dsimp only at hx
    split at hx
    · exact .inl (promised_withScope hx)
    · exact .inl hx
  · obtain rfl := Option.some.inj h
    obtain rfl := goto_calls _ hcall'
    exact .inl (promised_withScope hx)
  · obtain rfl := Option.some.inj h
    obtain rfl := goto_calls _ hcall'
    exact .inl (congrArg some (promised_swept hx))
  · obtain rfl := Option.some.inj h
    obtain rfl := goto_calls _ hcall'
    dsimp only at hx
    split at hx <;> cases hx
  · obtain rfl := Option.some.inj h
    obtain rfl := goto_calls _ hcall'
    cases hx
  · obtain rfl := Option.some.inj h
    obtain rfl := goto_calls _ hcall'
    dsimp only at hx
    split at hx <;> cases hx
  · obtain rfl := Option.some.inj h
    obtain rfl := goto_calls _ hcall'
    cases hx
  · -- a new snapshot is inserted, and returned in the end
    obtain rfl := Option.some.inj h
    obtain rfl := goto_calls _ hcall'
    dsimp only at hx
    right
    refine (Function.update_self ..).trans ?_
    split at hx <;> exact hx
  · obtain rfl := Option.some.inj h
    obtain rfl := goto_calls _ hcall'
    exact .inl hx
  · obtain rfl := Option.some.inj h
    obtain rfl := goto_calls _ hcall'
    dsimp only at hx
    split at hx <;> exact .inl hx
  · obtain rfl := Option.some.inj h
    obtain rfl := goto_calls _ hcall'
    exact .inl hx
  · obtain rfl := Option.some.inj h
    obtain rfl := goto_calls _ hcall'
    exact .inl hx
  · cases h

/-- A refresh that inserts a snapshot is to publish it. -/
theorem publishes_installing {call' : Call Id}
    {base : Option (SchemaSnapshot Id)} {scope : Option SchemaScope}
    {path : Option RefreshPath} (h : advance w s i call = some t)
    (hcall' : t.calls i = some call')
    (hphase : call.phase = .installing base x scope path) :
    call'.phase.publishes = some x := by
  simp only [advance, hphase, Option.some.injEq] at h
  subst h
  obtain rfl := goto_calls _ hcall'
  dsimp only
  split <;> rfl

/-- A call that is to publish a snapshot does, or publishes it now. -/
theorem publishes_advance {call' : Call Id} (h : advance w s i call = some t)
    (hcall' : t.calls i = some call') (hp : call.phase.publishes = some x) :
    call'.phase.publishes = some x ∨ ∃ path, call.phase = .publishing x path := by
  obtain ⟨connection, phase⟩ := call
  cases phase with
  | remembering scope snapshot path =>
      obtain rfl := Option.some.inj hp
      simp only [advance, Option.some.injEq] at h
      subst h
      obtain rfl := goto_calls _ hcall'
      exact .inl rfl
  | comparing snapshot path =>
      obtain rfl := Option.some.inj hp
      simp only [advance, Option.some.injEq] at h
      subst h
      obtain rfl := goto_calls _ hcall'
      left
      dsimp only
      split <;> rfl
  | saving snapshot path =>
      obtain rfl := Option.some.inj hp
      simp only [advance, Option.some.injEq] at h
      subst h
      obtain rfl := goto_calls _ hcall'
      exact .inl rfl
  | publishing snapshot path =>
      obtain rfl := Option.some.inj hp
      exact .inr ⟨path, rfl⟩
  | _ => cases hp

/-! ## A call among the others -/

variable {worlds : ConnectionId → World Id} {a : Action} {c : ConnectionId}
  {phase : Phase Id}

/-- A step of a call is what `advance` makes of it. -/
theorem next_advance (h : next worlds s (.advance i) = some t)
    (hcall : s.calls i = some call) :
    ∃ u, advance (worldOf worlds call.connection) s i call = some u ∧
      t.calls = u.calls ∧ t.snapshots = u.snapshots := by
  obtain ⟨call', hcall', hmoved⟩ := Option.bind_eq_some_iff.1 h
  rw [hcall] at hcall'
  obtain rfl := Option.some.inj hcall'
  obtain ⟨u, hu, rfl⟩ := Option.map_eq_some_iff.1 hmoved
  exact ⟨u, hu, rfl, rfl⟩

/-- What a step of the service makes of a call. -/
structure Follows (t : State Id) (a : Action) (i : Nat) (c : ConnectionId)
    (phase phase' : Phase Id) : Prop where
  promised : ∀ y, phase'.promised = some y →
    phase.promised = some y ∨ t.snapshots c = some y
  publishes : ∀ y, phase.publishes = some y → phase'.publishes = some y ∨
    a = .advance i ∧ ∃ path, phase = .publishing y path
  finished : phase.isFinished = true → phase' = phase

omit [DecidableEq Id] in
theorem Follows.refl (phase : Phase Id) : Follows t a i c phase phase :=
  ⟨fun _ => .inl, fun _ => .inl, fun _ => rfl⟩

/-- A call goes on, or is left alone. -/
theorem exists_follows (h : next worlds s a = some t)
    (hcall : s.calls i = some ⟨c, phase⟩) :
    ∃ phase', t.calls i = some ⟨c, phase'⟩ ∧ Follows t a i c phase phase' := by
  rcases next_cases h with ⟨j, c', request, -, hj, hcalls, -⟩ |
    ⟨j, call, phase', rfl, hj, hcalls, -⟩
  · have hne : i ≠ j := by
      rintro rfl
      rw [hj] at hcall
      cases hcall
    refine ⟨phase, ?_, .refl phase⟩
    rw [hcalls, Function.update_of_ne hne]
    exact hcall
  · by_cases hne : i = j
    · subst hne
      rw [hj] at hcall
      obtain rfl := Option.some.inj hcall
      obtain ⟨u, hu, hcallsu, hsnapshots⟩ := next_advance h hj
      have hself : t.calls i = some ⟨c, phase'⟩ := by
        rw [hcalls, Function.update_self]
      have hselfu : u.calls i = some ⟨c, phase'⟩ := hcallsu ▸ hself
      refine ⟨phase', hself, fun y hy => ?_, fun y hy => ?_, fun hfinished => ?_⟩
      · rw [hsnapshots]
        exact promised_advance hu hselfu hy
      · exact (publishes_advance hu hselfu hy).imp id fun hnow => ⟨rfl, hnow⟩
      · obtain ⟨reply, rfl⟩ := Phase.eq_finished hfinished
        cases hu
    · refine ⟨phase, ?_, .refl phase⟩
      rw [hcalls, Function.update_of_ne hne]
      exact hcall

/-! ## Where snapshots come from -/

/-- Every snapshot in memory, on disk and on its way satisfies `P`. -/
structure Carries (P : SchemaSnapshot Id → Prop) (s : State Id) : Prop where
  snapshots : ∀ c y, s.snapshots c = some y → P y
  caches : ∀ c y, s.caches c = some y → P y
  calls : ∀ i call, s.calls i = some call → ∀ y ∈ call.phase.snapshots, P y

variable {P : SchemaSnapshot Id → Prop}

omit [DecidableEq Id] in
theorem Carries.mono {Q : SchemaSnapshot Id → Prop} (h : Carries P s)
    (hPQ : ∀ y, P y → Q y) : Carries Q s :=
  ⟨fun c y hy => hPQ y (h.snapshots c y hy),
    fun c y hy => hPQ y (h.caches c y hy),
    fun i call hcall y hy => hPQ y (h.calls i call hcall y hy)⟩

omit [DecidableEq Id] in
/-- A call may go on with snapshots that satisfy `P`. -/
theorem Carries.goto {phase : Phase Id} (h : Carries P s)
    (hphase : ∀ y ∈ phase.snapshots, P y) : Carries P (s.goto i call phase) := by
  refine ⟨h.snapshots, h.caches, ?_⟩
  intro k call' hcall' y hy
  by_cases hk : k = i
  · subst hk
    obtain rfl := goto_calls phase hcall'
    exact hphase y hy
  · exact h.calls k call' ((Function.update_of_ne hk _ _).symm.trans hcall') y hy

omit [DecidableEq Id] in
theorem forall_update {g : ConnectionId → Option (SchemaSnapshot Id)}
    {c : ConnectionId} (hg : ∀ c y, g c = some y → P y) (hx : P x)
    (c' : ConnectionId) (y : SchemaSnapshot Id)
    (hy : Function.update g c (some x) c' = some y) : P y := by
  by_cases hc : c' = c
  · subst hc
    rw [Function.update_self] at hy
    exact Option.some.inj hy ▸ hx
  · rw [Function.update_of_ne hc] at hy
    exact hg c' y hy

omit [DecidableEq Id] in
theorem Carries.insert {c : ConnectionId} (h : Carries P s) (hx : P x) :
    Carries P (s.insert c x) :=
  ⟨forall_update h.snapshots hx, h.caches, h.calls⟩

omit [DecidableEq Id] in
theorem mem_loaded {y : SchemaSnapshot Id} {copy : Option (SchemaSnapshot Id)}
    {incremental : Bool} (h : y ∈ (loaded copy incremental).snapshots) :
    copy = some y := by
  cases incremental <;> exact Option.mem_toList.1 h

omit [DecidableEq Id] in
theorem mem_withScope {y : SchemaSnapshot Id} {purpose : Purpose Id}
    {scope : SchemaScope} (h : y ∈ (withScope purpose scope).snapshots) :
    y ∈ purpose.snapshots := by
  cases purpose with
  | refresh => cases h
  | sweep cached =>
      unfold withScope at h
      split at h
      · cases h
      · rename_i heq
        obtain rfl := (Purpose.sweep.inj heq).symm
        split at h
        · rename_i found hfound
          obtain rfl := List.mem_singleton.1 h
          exact Option.mem_toList.2 (Option.filter_eq_some_iff.1 hfound).1
        · cases h

theorem mem_swept {y cached : SchemaSnapshot Id} {scope : SchemaScope}
    {reply : Except ServiceError (List SchemaFingerprint)}
    (h : y ∈ (swept w cached scope reply).snapshots) : y = cached := by
  unfold swept at h
  split at h
  · rename_i found
    rcases planSweep_cases w cached found with ⟨-, hplan⟩ | ⟨reason, hplan⟩ |
      ⟨schemas, hplan, -⟩ <;> rw [hplan] at h
    · exact List.mem_singleton.1 h
    · cases h
    · exact List.mem_singleton.1 h
  · cases h
  · cases h
  · cases h

theorem advance_clock (h : advance w s i call = some t) : t.clock = s.clock := by
  unfold SchemaCalls.advance at h
  split at h
  case h_16 => cases h
  all_goals
    obtain rfl := Option.some.inj h
    rfl

/-- A step of a call brings no snapshot but the one that it makes. -/
theorem Carries.advance (h : Carries P s) (hcall : s.calls i = some call)
    (hmade : ∀ y, made w s call = some y → P y)
    (hstep : advance w s i call = some t) : Carries P t := by
  have hmine : ∀ y ∈ call.phase.snapshots, P y := h.calls i call hcall
  unfold SchemaCalls.advance at hstep
  split at hstep <;> rename_i hphase <;> rw [hphase] at hmine
  · obtain rfl := Option.some.inj hstep
    refine h.goto fun y hy => ?_
    split at hy
    · rename_i copy hcopy
      obtain rfl := List.mem_singleton.1 hy
      exact h.caches _ _ (caches_of_loadedCopy hcopy)
    · cases mem_loaded hy
  · obtain rfl := Option.some.inj hstep
    have hcopy := hmine _ (List.mem_singleton_self _)
    refine (h.insert hcopy).goto fun y hy => ?_
    obtain rfl := Option.some.inj (mem_loaded hy)
    exact hcopy
  · obtain rfl := Option.some.inj hstep
    refine h.goto fun y hy => ?_
    split at hy
    · rename_i snapshot hheld
      obtain rfl := List.mem_singleton.1 hy
      exact h.snapshots _ _ hheld
    · cases hy
  · obtain rfl := Option.some.inj hstep
    refine h.goto fun y hy => ?_
    split at hy
    · exact hmine y (mem_withScope hy)
    · exact hmine y hy
  · obtain rfl := Option.some.inj hstep
    exact h.goto fun y hy => hmine y (mem_withScope hy)
  · obtain rfl := Option.some.inj hstep
    refine h.goto fun y hy => ?_
    obtain rfl := mem_swept hy
    exact hmine _ (List.mem_singleton_self _)
  · obtain rfl := Option.some.inj hstep
    refine h.goto fun y hy => ?_
    split at hy
    · exact hmine y hy
    · cases hy
  · -- the spliced snapshot is new
    obtain rfl := Option.some.inj hstep
    refine h.goto fun y hy => hmade y ?_
    rw [made, hphase, List.mem_singleton.1 hy]
  · obtain rfl := Option.some.inj hstep
    refine h.goto fun y hy => ?_
    split at hy <;> cases hy
  · -- so is the snapshot of a full read
    obtain rfl := Option.some.inj hstep
    refine h.goto fun y hy => hmade y ?_
    rw [made, hphase, List.mem_singleton.1 hy]
  · obtain rfl := Option.some.inj hstep
    have hsnapshot := hmine _ (List.mem_singleton_self _)
    refine (h.insert hsnapshot).goto fun y hy => ?_
    split at hy <;> exact List.mem_singleton.1 hy ▸ hsnapshot
  · obtain rfl := Option.some.inj hstep
    exact Carries.goto ⟨h.snapshots, h.caches, h.calls⟩ hmine
  · obtain rfl := Option.some.inj hstep
    refine h.goto fun y hy => ?_
    split at hy <;> exact hmine y hy
  · obtain rfl := Option.some.inj hstep
    refine Carries.goto ⟨h.snapshots, ?_, h.calls⟩ hmine
    intro c y hy
    split at hy
    · exact h.caches c y hy
    · exact forall_update h.caches (hmine _ (List.mem_singleton_self _)) c y hy
  · obtain rfl := Option.some.inj hstep
    exact Carries.goto ⟨h.snapshots, h.caches, h.calls⟩ hmine
  · cases hstep

end Steps

end Tempr.Services.SchemaCalls
