import Tempr.Services.CatalogLifecycle
import Tempr.Services.SnapshotFlow

/-!
# The catalog and the id that is installed

`install_snapshot` compares ids only. That is enough because every snapshot gets
an id of its own when it is made: the catalog is always the one built from the
snapshot whose id is installed.
-/

namespace Tempr.Services.CatalogLifecycle

open Tempr.Support Tempr.Intel SchemaService
open SchemaCalls (Carries)

variable {Id : Type}

/-- `known` maps the ids of all snapshots there are to these snapshots. -/
def Named (known : SchemaSnapshotId → Option (SchemaSnapshot Id))
    (y : SchemaSnapshot Id) : Prop :=
  known y.id = some y

/-- The snapshot that a task is about to install. -/
def TaskPhase.carries : TaskPhase Id → Option (SchemaSnapshot Id)
  | .installingCopy copy => some copy
  | .installing snapshot => some snapshot
  | _ => none

/-- The call that a task waits for. -/
def TaskPhase.awaited : TaskPhase Id → Option Nat
  | .loading i => some i
  | .refreshing i => some i
  | _ => none

theorem carries_afterLoad (kind : TaskKind) :
    (kind.afterLoad : TaskPhase Id).carries = none := by
  cases kind <;> rfl

theorem awaited_afterLoad (kind : TaskKind) :
    (kind.afterLoad : TaskPhase Id).awaited = none := by
  cases kind <;> rfl

theorem awaited_resume (task : Task Id) (reply : SchemaCalls.Reply Id) :
    (task.resume reply).awaited = none := by
  unfold Task.resume
  split
  · rfl
  · exact awaited_afterLoad _
  · rfl
  · rfl

/-- A task goes on with the snapshot of the reply. -/
theorem carries_resume {task : Task Id} {reply : SchemaCalls.Reply Id}
    {y : SchemaSnapshot Id} (h : (task.resume reply).carries = some y) :
    ∃ path, reply = .ok (some y, path) := by
  unfold Task.resume at h
  split at h
  · obtain rfl := Option.some.inj h
    exact ⟨_, rfl⟩
  · rw [carries_afterLoad] at h
    cases h
  · obtain rfl := Option.some.inj h
    exact ⟨_, rfl⟩
  · cases h

variable [Unicode] [DecidableEq Id]

/-- All snapshots in the service are named, and the catalog is built from the one
whose id is installed. -/
structure Identified (known : SchemaSnapshotId → Option (SchemaSnapshot Id))
    (s : State Id) : Prop where
  schema : Carries (Named known) s.schema
  handlers : ∀ i y, s.handlers i = some (.installing y) → Named known y
  tasks : ∀ task ∈ s.tasks, ∀ y, task.phase.carries = some y → Named known y
  installed : ∀ id, s.installedSnapshot = some id →
    ∃ y, y.id = id ∧ Named known y ∧ s.catalog = .fromSnapshot y

section Identity

variable {worlds : ConnectionId → World Id} {s t : State Id}
  {known known' : SchemaSnapshotId → Option (SchemaSnapshot Id)}
  {x : SchemaSnapshot Id}

omit [Unicode] [DecidableEq Id] in
theorem reply_eq_some {i : Nat} {reply : SchemaCalls.Reply Id}
    (h : s.reply i = some reply) :
    ∃ connection, s.schema.calls i = some ⟨connection, .finished reply⟩ := by
  unfold State.reply at h
  split at h
  · rename_i connection reply' hcall _
    obtain rfl := Option.some.inj h
    exact ⟨connection, hcall⟩
  · cases h

theorem Identified.mono (h : Identified known s)
    (hle : ∀ y, Named known y → Named known' y) : Identified known' s where
  schema := h.schema.mono hle
  handlers i y hy := hle y (h.handlers i y hy)
  tasks task htask y hy := hle y (h.tasks task htask y hy)
  installed id hid := by
    obtain ⟨y, hy, hnamed, hcatalog⟩ := h.installed id hid
    exact ⟨y, hy, hle y hnamed, hcatalog⟩

theorem Identified.goto {k : Nat} {task : Task Id} {phase : TaskPhase Id}
    (h : Identified known s)
    (hphase : ∀ y, phase.carries = some y → Named known y) :
    Identified known (s.goto k task phase) where
  schema := h.schema
  handlers := h.handlers
  tasks := by
    intro task' htask' y hy
    rcases List.mem_or_eq_of_mem_set htask' with hold | rfl
    · exact h.tasks task' hold y hy
    · exact hphase y hy
  installed := h.installed

@[simp] theorem installSnapshot_schema :
    (s.installSnapshot x).schema = s.schema := by
  unfold State.installSnapshot
  split <;> rfl

theorem Identified.installSnapshot (h : Identified known s)
    (hx : Named known x) : Identified known (s.installSnapshot x) := by
  unfold State.installSnapshot
  split
  · exact h
  · refine ⟨h.schema, h.handlers, h.tasks, ?_⟩
    intro id hid
    exact ⟨x, Option.some.inj hid, hx, rfl⟩

theorem Identified.handle {i : Nat} (h : Identified known s)
    (hstep : handleStep s i = some t) : Identified known t := by
  unfold handleStep at hstep
  split at hstep
  · cases hstep
  · rename_i connection snapshot hhandler
    obtain rfl := Option.some.inj hstep
    refine ⟨h.schema, ?_, h.tasks, h.installed⟩
    intro j y hy
    by_cases hj : j = i
    · subst hj
      dsimp only at hy
      rw [Function.update_self] at hy
      obtain ⟨loaded, hloaded, heq⟩ := Option.map_eq_some_iff.1 hy
      obtain rfl := Handler.installing.inj heq
      exact h.schema.snapshots _ _ (Option.filter_eq_some_iff.1 hloaded).1
    · dsimp only at hy
      rw [Function.update_of_ne hj] at hy
      exact h.handlers j y hy
  · rename_i loaded hhandler
    obtain rfl := Option.some.inj hstep
    have hinstalled := h.installSnapshot (h.handlers i loaded hhandler)
    refine ⟨hinstalled.schema, ?_, hinstalled.tasks, hinstalled.installed⟩
    intro j y hy
    by_cases hj : j = i
    · subst hj
      dsimp only at hy
      rw [Function.update_self] at hy
      cases hy
    · dsimp only at hy
      rw [Function.update_of_ne hj] at hy
      exact hinstalled.handlers j y hy

theorem handleStep_schema {i : Nat} (h : handleStep s i = some t) :
    t.schema = s.schema := by
  unfold handleStep at h
  split at h
  · cases h
  · obtain rfl := Option.some.inj h
    rfl
  · obtain rfl := Option.some.inj h
    exact installSnapshot_schema

/-- A task starts a call, takes a reply or installs a snapshot. -/
theorem taskStep_cases {k call : Nat} {task : Task Id}
    (h : taskStep worlds s k task call = some t) :
    (∃ request u phase, task.phase.carries = none ∧
      schemaStep worlds s (.start call task.connection request) = some u ∧
        phase.carries = none ∧ phase.awaited = some call ∧
        t = u.goto k task phase) ∨
    (∃ i reply failures, task.phase.carries = none ∧
      task.phase.awaited = some i ∧ s.reply i = some reply ∧
        t = { s with failures }.goto k task (task.resume reply)) ∨
    ∃ y phase, task.phase.carries = some y ∧ phase.carries = none ∧
      phase.awaited = none ∧ t = (s.installSnapshot y).goto k task phase := by
  unfold taskStep at h
  split at h <;> rename_i hphase <;> rw [hphase]
  · obtain ⟨u, hu, rfl⟩ := Option.map_eq_some_iff.1 h
    exact .inl ⟨_, u, _, rfl, hu, rfl, rfl, rfl⟩
  · obtain ⟨reply, hreply, rfl⟩ := Option.map_eq_some_iff.1 h
    exact .inr (.inl ⟨_, reply, s.failures, rfl, rfl, hreply, rfl⟩)
  · obtain rfl := Option.some.inj h
    exact .inr (.inr ⟨_, _, rfl, carries_afterLoad _, awaited_afterLoad _, rfl⟩)
  · obtain ⟨u, hu, rfl⟩ := Option.map_eq_some_iff.1 h
    exact .inl ⟨_, u, _, rfl, hu, rfl, rfl, rfl⟩
  · obtain ⟨reply, hreply, rfl⟩ := Option.map_eq_some_iff.1 h
    exact .inr (.inl ⟨_, reply, _, rfl, rfl, hreply, rfl⟩)
  · obtain rfl := Option.some.inj h
    exact .inr (.inr ⟨_, _, rfl, rfl, rfl, rfl⟩)
  · cases h

theorem Identified.stateChanged (h : Identified known s) (id : ConnectionId)
    (state : ConnectionState) (runtime : Bool) :
    Identified known (onStateChanged s id state runtime) := by
  unfold onStateChanged
  split
  · refine ⟨h.schema, h.handlers, ?_, h.installed⟩
    intro task htask y hy
    split at htask
    · rcases List.mem_append.1 htask with hold | hnew
      · exact h.tasks task hold y hy
      · obtain rfl := List.mem_singleton.1 hnew
        cases hy
    · exact h.tasks task htask y hy
  · exact h

omit [Unicode] in
/-- A step of the schema service sets no task and installs nothing. -/
theorem schemaStep_frame {a : SchemaCalls.Action}
    (h : schemaStep worlds s a = some t) :
    SchemaCalls.next worlds s.schema a = some t.schema ∧
      t.activeConnection = s.activeConnection ∧
      t.installedSnapshot = s.installedSnapshot ∧ t.catalog = s.catalog ∧
      t.tasks = s.tasks := by
  obtain ⟨schema, hnext, rfl⟩ := Option.map_eq_some_iff.1 h
  exact ⟨hnext, rfl, rfl, rfl, rfl⟩

omit [Unicode] in
/-- The handler that a step of the schema service starts has read nothing yet. -/
theorem schemaStep_handlers {a : SchemaCalls.Action} {i : Nat}
    {handler : Handler Id} (h : schemaStep worlds s a = some t)
    (hi : t.handlers i = some handler) :
    s.handlers i = some handler ∨
      ∃ connection snapshot path, a = .advance i ∧
        s.schema.calls i = some ⟨connection, .publishing snapshot path⟩ ∧
        handler = .reading connection snapshot.id := by
  obtain ⟨schema, -, rfl⟩ := Option.map_eq_some_iff.1 h
  cases a with
  | start j connection request => exact .inl hi
  | advance j =>
      dsimp only at hi
      cases hstarted : (s.schema.calls j).bind handlerOf with
      | none =>
          rw [hstarted] at hi
          exact .inl hi
      | some started =>
          rw [hstarted] at hi
          dsimp only at hi
          by_cases hj : i = j
          · subst hj
            rw [Function.update_self] at hi
            obtain rfl := Option.some.inj hi
            obtain ⟨⟨connection, phase⟩, hcall, hhandler⟩ :=
              Option.bind_eq_some_iff.1 hstarted
            unfold handlerOf at hhandler
            split at hhandler
            · rename_i snapshot path hphase
              obtain rfl : phase = .publishing snapshot path := hphase
              exact .inr ⟨connection, snapshot, path, rfl, hcall,
                (Option.some.inj hhandler).symm⟩
            · cases hhandler
          · rw [Function.update_of_ne hj] at hi
            exact .inl hi

/-- The ids of the snapshots that are still to be made name nothing. -/
def Unused (worlds : ConnectionId → World Id)
    (known : SchemaSnapshotId → Option (SchemaSnapshot Id)) (clock : Nat) :
    Prop :=
  ∀ c k, clock ≤ k → known ((worlds c).snapshotId k) = none

omit [Unicode] [DecidableEq Id] in
/-- A new snapshot gets a name of its own. -/
theorem Named.learn {c : ConnectionId} {clock : Nat}
    (hunused : Unused worlds known clock)
    (hid : x.id = (worlds c).snapshotId clock) (y : SchemaSnapshot Id)
    (hy : Named known y) :
    Named (Function.update known x.id (some x)) y := by
  have hne : y.id ≠ x.id := by
    intro heq
    have hnone := hunused c clock (Nat.le_refl clock)
    rw [← hid, ← heq, hy] at hnone
    cases hnone
  rw [Named, Function.update_of_ne hne]
  exact hy

omit [Unicode] [DecidableEq Id] in
theorem Unused.learn {c : ConnectionId} {clock : Nat}
    (hmade : ∀ c c' i j, (worlds c).snapshotId i = (worlds c').snapshotId j →
      c = c' ∧ i = j)
    (hunused : Unused worlds known clock)
    (hid : x.id = (worlds c).snapshotId clock) :
    Unused worlds (Function.update known x.id (some x)) (clock + 3) := by
  intro c' k hk
  have hne : (worlds c').snapshotId k ≠ x.id := by
    intro heq
    have := (hmade c' c k clock (heq.trans hid)).2
    omega
  rw [Function.update_of_ne hne]
  exact hunused c' k (by omega)

theorem Identified.schemaStep {a : SchemaCalls.Action}
    (hmade : ∀ c c' i j, (worlds c).snapshotId i = (worlds c').snapshotId j →
      c = c' ∧ i = j)
    (h : Identified known s) (hunused : Unused worlds known s.schema.clock)
    (hstep : schemaStep worlds s a = some t) :
    ∃ known', Identified known' t ∧ Unused worlds known' t.schema.clock := by
  obtain ⟨hnext, -, hinstalled, hcatalog, htasks⟩ := schemaStep_frame hstep
  have hrest : ∀ {known'}, (∀ y, Named known y → Named known' y) →
      Carries (Named known') t.schema → Identified known' t := by
    intro known' hle hschema
    have hknown := h.mono hle
    refine ⟨hschema, ?_, ?_, ?_⟩
    · intro i y hy
      rcases schemaStep_handlers hstep hy with hold |
        ⟨_, _, _, _, _, hreading⟩
      · exact hknown.handlers i y hold
      · cases hreading
    · rw [htasks]
      exact hknown.tasks
    · rw [hinstalled, hcatalog]
      exact hknown.installed
  cases a with
  | start i connection request =>
      simp only [SchemaCalls.next] at hnext
      split at hnext
      · obtain hschema := Option.some.inj hnext
        refine ⟨known, hrest (fun _ hy => hy) ?_, ?_⟩
        · rw [← hschema]
          have hgoto : Carries (Named known)
              (s.schema.goto i ⟨connection, SchemaCalls.firstPhase request⟩
                (SchemaCalls.firstPhase request)) :=
            h.schema.goto fun y hy => by cases request <;> cases hy
          exact ⟨hgoto.snapshots, hgoto.caches, hgoto.calls⟩
        · rw [← hschema]
          intro c k hk
          have hclock : s.schema.clock + 3 ≤ k := hk
          exact hunused c k (by omega)
      · cases hnext
  | advance i =>
      obtain ⟨call, hcall, hmoved⟩ := Option.bind_eq_some_iff.1 hnext
      obtain ⟨u, hu, htick⟩ := Option.map_eq_some_iff.1 hmoved
      have hclock : t.schema.clock = s.schema.clock + 3 := by
        rw [← htick]
        exact congrArg (· + 3) (SchemaCalls.advance_clock hu)
      rw [hclock]
      have hticked : ∀ {P : SchemaSnapshot Id → Prop}, Carries P u →
          Carries P t.schema := by
        intro P hP
        rw [← htick]
        exact ⟨hP.snapshots, hP.caches, hP.calls⟩
      cases hnew : SchemaCalls.made
          (SchemaCalls.worldOf worlds call.connection) s.schema call with
      | none =>
          refine ⟨known, hrest (fun _ hy => hy) (hticked ?_), ?_⟩
          · refine h.schema.advance hcall ?_ hu
            intro y hy
            rw [hnew] at hy
            cases hy
          · intro c k hk
            exact hunused c k (by omega)
      | some x =>
          have hid : x.id = (worlds call.connection).snapshotId s.schema.clock :=
            SchemaCalls.made_id
              (w := SchemaCalls.worldOf worlds call.connection) hnew
          have hlearn := Named.learn hunused hid
          refine ⟨_, hrest hlearn (hticked ?_), hunused.learn hmade hid⟩
          refine (h.schema.mono hlearn).advance hcall ?_ hu
          intro y hy
          rw [hnew] at hy
          obtain rfl := Option.some.inj hy
          exact Function.update_self ..

theorem Identified.task {k call : Nat} {task : Task Id}
    (hmade : ∀ c c' i j, (worlds c).snapshotId i = (worlds c').snapshotId j →
      c = c' ∧ i = j)
    (h : Identified known s) (hunused : Unused worlds known s.schema.clock)
    (htask : task ∈ s.tasks) (hstep : taskStep worlds s k task call = some t) :
    ∃ known', Identified known' t ∧ Unused worlds known' t.schema.clock := by
  rcases taskStep_cases hstep with
    ⟨request, u, phase, -, hu, hcarries, -, rfl⟩ |
    ⟨i, reply, failures, -, -, hreply, rfl⟩ |
    ⟨y, phase, hy, hcarries, -, rfl⟩
  · obtain ⟨known', hknown, hclock⟩ := h.schemaStep hmade hunused hu
    refine ⟨known', hknown.goto fun y hy => ?_, hclock⟩
    rw [hcarries] at hy
    cases hy
  · -- the reply carries what the call does
    refine ⟨known, Identified.goto ⟨h.schema, h.handlers, h.tasks, h.installed⟩
      fun y hy => ?_, hunused⟩
    obtain ⟨path, rfl⟩ := carries_resume hy
    obtain ⟨connection, hcall⟩ := reply_eq_some hreply
    exact h.schema.calls i _ hcall y (List.mem_singleton_self _)
  · refine ⟨known, (h.installSnapshot (h.tasks task htask y hy)).goto
      fun z hz => ?_, ?_⟩
    · rw [hcarries] at hz
      cases hz
    · change Unused worlds known (s.installSnapshot _).schema.clock
      rw [installSnapshot_schema]
      exact hunused

/-! ## Runs -/

/-- There are names for all snapshots there are, and none for those to come. -/
def Traceable (worlds : ConnectionId → World Id) (s : State Id) : Prop :=
  (∀ c c' i j, (worlds c).snapshotId i = (worlds c').snapshotId j →
    c = c' ∧ i = j) ∧
  ∃ known, Identified known s ∧ Unused worlds known s.schema.clock

theorem traceable_of_fresh (h : Fresh worlds s) : Traceable worlds s := by
  classical
  refine ⟨h.distinct.made, ?_⟩
  let known : SchemaSnapshotId → Option (SchemaSnapshot Id) := fun id =>
    if hid : ∃ y c, s.schema.caches c = some y ∧ y.id = id then
      some hid.choose
    else none
  have hstored : ∀ c y, s.schema.caches c = some y → Named known y := by
    intro c y hy
    have hid : ∃ y' c', s.schema.caches c' = some y' ∧ y'.id = y.id :=
      ⟨y, c, hy, rfl⟩
    obtain ⟨c', hc', heq⟩ := hid.choose_spec
    rw [Named, show known y.id = some hid.choose from dif_pos hid,
      h.distinct.stored c' c _ y hc' hy heq]
  refine ⟨known, ⟨⟨?_, hstored, ?_⟩, ?_, ?_, ?_⟩, ?_⟩
  · intro c y hy
    rw [h.schema.snapshots c] at hy
    cases hy
  · intro i call hcall
    rw [h.schema.calls i] at hcall
    cases hcall
  · intro i y hy
    rw [h.handlers i] at hy
    cases hy
  · intro task htask
    rw [h.tasks] at htask
    cases htask
  · intro id hid
    rw [h.installedSnapshot] at hid
    cases hid
  · intro c k _
    refine dif_neg ?_
    rintro ⟨y, c', hy, heq⟩
    exact h.distinct.apart c' y c k hy heq.symm

theorem Traceable.next {a : Action} (h : Traceable worlds s)
    (hstep : next worlds s a = some t) : Traceable worlds t := by
  obtain ⟨hmade, known, hknown, hunused⟩ := h
  refine ⟨hmade, ?_⟩
  cases a with
  | stateChanged id state runtime =>
      obtain rfl := Option.some.inj hstep
      refine ⟨known, hknown.stateChanged id state runtime, ?_⟩
      unfold onStateChanged
      split
      · exact hunused
      · exact hunused
  | schema a => exact hknown.schemaStep hmade hunused hstep
  | handle i =>
      refine ⟨known, hknown.handle hstep, ?_⟩
      rw [handleStep_schema hstep]
      exact hunused
  | task k call =>
      obtain ⟨task, htask, hmoved⟩ := Option.bind_eq_some_iff.1 hstep
      exact hknown.task hmade hunused (List.mem_of_getElem? htask) hmoved

end Identity

end Tempr.Services.CatalogLifecycle
