import Tempr.Services.CatalogIdentity

/-!
# The catalog follows the active connection

The engine holds one catalog, and every task and handler installs what it has
read without looking whether the schema service still holds it, or whether its
connection is still the active one. So the catalog is the active connection's as
long as nothing that is out of date is still on its way to be installed.
-/

namespace Tempr.Services.CatalogLifecycle

open Tempr.Support Tempr.Intel SchemaService

section Model

variable {Id : Type} [Unicode] [DecidableEq Id]

/-! ## What is on its way -/

/-- A snapshot of connection `c` that is about to be installed: a handler or a
task has read it, or a task waits for a call that will return it. -/
inductive State.InHand (s : State Id) (c : ConnectionId)
    (y : SchemaSnapshot Id) : Prop
  | handler {i : Nat} {phase : SchemaCalls.Phase Id}
      (hcall : s.schema.calls i = some ⟨c, phase⟩)
      (h : s.handlers i = some (.installing y))
  | task {task : Task Id} (htask : task ∈ s.tasks)
      (hconnection : task.connection = c) (h : task.phase.carries = some y)
  | awaited {task : Task Id} {i : Nat} {phase : SchemaCalls.Phase Id}
      (htask : task ∈ s.tasks) (hawaited : task.phase.awaited = some i)
      (hcall : s.schema.calls i = some ⟨c, phase⟩)
      (h : phase.promised = some y)

/-- The connection whose snapshot a step installs. -/
def State.installs (s : State Id) : Action → Option ConnectionId
  | .handle i =>
      match s.handlers i with
      | some (.installing _) => (s.schema.calls i).map SchemaCalls.Call.connection
      | _ => none
  | .task k _ =>
      s.tasks[k]?.bind fun task => task.phase.carries.map fun _ => task.connection
  | _ => none

/-- Whether the next step of call `i` puts a copy from disk in memory for task
`k`, which waits for the call. -/
def State.copiesFor (s : State Id) (i k : Nat) : Bool :=
  match s.schema.calls i, s.tasks[k]? with
  | some ⟨_, .inserting _ _⟩, some task => decide (task.phase.awaited = some i)
  | _, _ => false

/-! ## The order of the steps -/

/-- What has happened that matters later. -/
structure History where
  /-- the connection whose snapshot was installed last -/
  last : Option ConnectionId
  /-- the tasks that are to install the snapshot in memory, which no event tells
  of, as long as nothing has been installed since -/
  due : Nat → Bool

namespace History

def empty : History where
  last := none
  due _ := false

/-- Whether the catalog is that of connection `c`, or is to become that. -/
def tracks (h : History) (s : State Id) (c : ConnectionId) : Bool :=
  decide (s.activeConnection = some c) || decide (h.last = some c)

/-- Whether a state change makes a connection active whose snapshot is in memory
but not in the engine. -/
def switches (h : History) (s : State Id) (id : ConnectionId)
    (state : ConnectionState) : Bool :=
  (spawns state).isSome && (s.schema.snapshots id).isSome && !h.tracks s id

def note (h : History) (s : State Id) (a : Action) : History :=
  match s.installs a with
  | some c => { last := some c, due := fun _ => false }
  | none =>
      match a with
      | .stateChanged id state _ =>
          { h with
            due := fun k => h.due k ||
              h.switches s id state && decide (k = s.tasks.length) }
      | .schema (.advance i) =>
          { h with due := fun k => h.due k || s.copiesFor i k }
      | _ => h

/-- The steps that leave nothing out of date on its way, and nobody without the
snapshot that is theirs to install. -/
structure InOrder (h : History) (s : State Id) (a : Action) : Prop where
  /-- what is installed is of the active connection -/
  active : ∀ c, s.installs a = some c → s.activeConnection = some c
  /-- no call replaces a snapshot that is about to be installed -/
  alone : ∀ i call x y, a = .schema (.advance i) →
    s.schema.calls i = some call → call.phase.insertion = some x →
      s.InHand call.connection y → y = x
  /-- a copy from disk is put in memory for a task that waits for it -/
  copied : ∀ i call copy incremental, a = .schema (.advance i) →
    s.schema.calls i = some call → call.phase = .inserting copy incremental →
      h.tracks s call.connection = true →
        ∃ task ∈ s.tasks, task.phase.awaited = some i ∧
          task.connection = call.connection
  /-- a switch to a snapshot in memory finds a runtime to spawn its task on -/
  spawned : ∀ id state runtime, a = .stateChanged id state runtime →
    h.switches s id state = true → runtime = true
  /-- a task that is to install the snapshot in memory gets one to install -/
  kept : ∀ k call task i reply, a = .task k call → s.tasks[k]? = some task →
    h.due k = true → h.tracks s task.connection = true →
      task.phase.awaited = some i → s.reply i = some reply →
        task.resume reply ≠ .finished

end History

/-- The service and its history, as long as all steps are in order. -/
def orderlySystem (worlds : ConnectionId → World Id) :
    System (State Id × History) Action :=
  ((system worlds).watch .empty History.note).restrict fun p a =>
    p.2.InOrder p.1 a

/-! ## What holds in every state -/

def Handler.Of (c : ConnectionId) : Handler Id → Prop
  | .reading connection _ => connection = c
  | .installing _ => True

/-- Handlers run once their call has published, and tasks wait for calls of their
connection. -/
structure Linked (s : State Id) : Prop where
  handlers : ∀ i handler, s.handlers i = some handler → ∃ c reply,
    s.schema.calls i = some ⟨c, .finished reply⟩ ∧ handler.Of c
  tasks : ∀ task ∈ s.tasks, ∀ i, task.phase.awaited = some i →
    ∃ phase, s.schema.calls i = some ⟨task.connection, phase⟩

/-- What is about to be installed is what the schema service holds. -/
def Current (s : State Id) : Prop :=
  ∀ c y, s.InHand c y → s.schema.snapshots c = some y

/-- The snapshot `x` of connection `c` is installed, or some call, handler or
task is to have it installed. -/
inductive Owed (p : State Id × History) (c : ConnectionId)
    (x : SchemaSnapshot Id) : Prop
  | installed (h : p.1.has x = true)
  | publishing (i : Nat) (phase : SchemaCalls.Phase Id)
      (hcall : p.1.schema.calls i = some ⟨c, phase⟩)
      (h : phase.publishes = some x)
  | reading (i : Nat) (h : p.1.handlers i = some (.reading c x.id))
  | handling (i : Nat) (h : p.1.handlers i = some (.installing x))
  | task (k : Nat) (task : Task Id) (htask : p.1.tasks[k]? = some task)
      (hconnection : task.connection = c) (hdue : p.2.due k = true)
      (h : task.phase ≠ .finished)

def Following (p : State Id × History) : Prop :=
  ∀ c x, p.2.tracks p.1 c = true → p.1.schema.snapshots c = some x → Owed p c x

section Steps

variable {worlds : ConnectionId → World Id} {s t : State Id} {h h' : History}
  {c : ConnectionId} {x y : SchemaSnapshot Id} {a : Action}

/-! ## Steps of the schema service -/

omit [Unicode] in
theorem Linked.schema {a : SchemaCalls.Action} (hlinked : Linked s)
    (hstep : schemaStep worlds s a = some t) : Linked t := by
  obtain ⟨hnext, -, -, -, htasks⟩ := schemaStep_frame hstep
  constructor
  · intro i handler hi
    rcases schemaStep_handlers hstep hi with hold |
      ⟨c, snapshot, path, rfl, hcall, rfl⟩
    · obtain ⟨c, reply, hcall, hof⟩ := hlinked.handlers i handler hold
      obtain ⟨phase', hcall', hfollows⟩ := SchemaCalls.exists_follows hnext hcall
      rw [hfollows.finished rfl] at hcall'
      exact ⟨c, reply, hcall', hof⟩
    · obtain ⟨u, hu, hcalls, -⟩ := SchemaCalls.next_advance hnext hcall
      obtain rfl := Option.some.inj hu
      refine ⟨c, .ok (some snapshot, path), ?_, rfl⟩
      rw [hcalls]
      exact Function.update_self ..
  · intro task htask i hawaited
    rw [htasks] at htask
    obtain ⟨phase, hcall⟩ := hlinked.tasks task htask i hawaited
    obtain ⟨phase', hcall', -⟩ := SchemaCalls.exists_follows hnext hcall
    exact ⟨phase', hcall'⟩

omit [Unicode] in
/-- A step of the schema service brings nothing on its way but what it leaves in
memory. -/
theorem State.InHand.of_schemaStep {a : SchemaCalls.Action}
    (hlinked : Linked s) (hstep : schemaStep worlds s a = some t)
    (hhand : t.InHand c y) :
    s.InHand c y ∨ t.schema.snapshots c = some y := by
  obtain ⟨hnext, -, -, -, htasks⟩ := schemaStep_frame hstep
  cases hhand with
  | handler hcall hi =>
      rcases schemaStep_handlers hstep hi with hold | ⟨_, _, _, _, _, hreading⟩
      · obtain ⟨c', reply, hbefore, -⟩ := hlinked.handlers _ _ hold
        obtain ⟨phase', hafter, -⟩ := SchemaCalls.exists_follows hnext hbefore
        rw [hcall] at hafter
        obtain ⟨rfl, -⟩ := SchemaCalls.Call.mk.inj (Option.some.inj hafter)
        exact .inl (.handler hbefore hold)
      · cases hreading
  | task htask hconnection hcarries =>
      rw [htasks] at htask
      exact .inl (.task htask hconnection hcarries)
  | awaited htask hawaited hcall hpromised =>
      rw [htasks] at htask
      obtain ⟨phase, hbefore⟩ := hlinked.tasks _ htask _ hawaited
      obtain ⟨phase', hafter, hfollows⟩ :=
        SchemaCalls.exists_follows hnext hbefore
      rw [hcall] at hafter
      obtain ⟨rfl, rfl⟩ := SchemaCalls.Call.mk.inj (Option.some.inj hafter)
      exact (hfollows.promised y hpromised).imp
        (fun hold => .awaited htask hawaited hbefore hold) id

omit [Unicode] in
/-- What a step of the schema service inserts. -/
theorem snapshots_schemaStep {a : SchemaCalls.Action}
    (hstep : schemaStep worlds s a = some t) :
    t.schema.snapshots = s.schema.snapshots ∨
      ∃ i call snapshot, a = .advance i ∧ s.schema.calls i = some call ∧
        call.phase.insertion = some snapshot ∧
        t.schema.snapshots =
          Function.update s.schema.snapshots call.connection (some snapshot) := by
  obtain ⟨hnext, -⟩ := schemaStep_frame hstep
  rcases SchemaCalls.next_cases hnext with ⟨_, _, _, -, -, -, hsame, -⟩ |
    ⟨i, call, phase, rfl, hcall, -, heffect⟩
  · exact .inl hsame
  · have hholds := heffect.snapshots
    cases hinsertion : call.phase.insertion with
    | none =>
        rw [hinsertion] at hholds
        exact .inl hholds
    | some snapshot =>
        rw [hinsertion] at hholds
        exact .inr ⟨i, call, snapshot, rfl, hcall, hinsertion, hholds⟩

omit [Unicode] in
theorem Current.schema {a : SchemaCalls.Action} (hcurrent : Current s)
    (hlinked : Linked s) (horder : h.InOrder s (.schema a))
    (hstep : schemaStep worlds s a = some t) : Current t := by
  intro c y hhand
  rcases hhand.of_schemaStep hlinked hstep with hbefore | hmemory
  · have hheld := hcurrent c y hbefore
    rcases snapshots_schemaStep hstep with hsame |
      ⟨i, call, snapshot, rfl, hcall, hinsertion, hupdate⟩
    · rw [hsame]
      exact hheld
    · rw [hupdate]
      by_cases hc : c = call.connection
      · subst hc
        obtain rfl := horder.alone i call snapshot y rfl hcall hinsertion hbefore
        exact Function.update_self ..
      · rw [Function.update_of_ne hc]
        exact hheld
  · exact hmemory

omit [Unicode] in
/-- A publication starts the handler of its event. -/
theorem schemaStep_publishing {i : Nat} {path : Option RefreshPath}
    (hstep : schemaStep worlds s (.advance i) = some t)
    (hcall : s.schema.calls i = some ⟨c, .publishing x path⟩) :
    t.handlers i = some (.reading c x.id) := by
  obtain ⟨schema, -, rfl⟩ := Option.map_eq_some_iff.1 hstep
  simp [hcall, handlerOf]

omit [Unicode] in
/-- A call whose handler runs takes no step. -/
theorem schemaStep_keeps_handler {a : SchemaCalls.Action} {i : Nat}
    {handler : Handler Id} (hlinked : Linked s)
    (hstep : schemaStep worlds s a = some t)
    (hi : s.handlers i = some handler) : t.handlers i = some handler := by
  obtain ⟨schema, hnext, rfl⟩ := Option.map_eq_some_iff.1 hstep
  cases a with
  | start j connection request => exact hi
  | advance j =>
      dsimp only
      cases hstarted : (s.schema.calls j).bind handlerOf with
      | none => exact hi
      | some started =>
          by_cases hj : i = j
          · subst hj
            obtain ⟨c, reply, hcall, -⟩ := hlinked.handlers i handler hi
            rw [hcall] at hstarted
            cases hstarted
          · exact (Function.update_of_ne hj _ _).trans hi

omit [Unicode] in
/-- What is owed stays owed, whatever the schema service does. -/
theorem Owed.kept {a : SchemaCalls.Action} (hlinked : Linked s)
    (hstep : schemaStep worlds s a = some t)
    (hdue : ∀ k, h.due k = true → h'.due k = true) (howed : Owed (s, h) c x) :
    Owed (t, h') c x := by
  obtain ⟨hnext, -, hinstalled, -, htasks⟩ := schemaStep_frame hstep
  cases howed with
  | installed hhas =>
      refine .installed ?_
      change t.has x = true
      rw [State.has, hinstalled]
      exact hhas
  | publishing i phase hcall hpublishes =>
      obtain ⟨phase', hcall', hfollows⟩ := SchemaCalls.exists_follows hnext hcall
      rcases hfollows.publishes x hpublishes with hlater | ⟨rfl, path, rfl⟩
      · exact .publishing i phase' hcall' hlater
      · exact .reading i (schemaStep_publishing hstep hcall)
  | reading i hi => exact .reading i (schemaStep_keeps_handler hlinked hstep hi)
  | handling i hi =>
      exact .handling i (schemaStep_keeps_handler hlinked hstep hi)
  | task k task htask hconnection hk hphase =>
      exact .task k task (by rw [htasks]; exact htask) hconnection (hdue k hk)
        hphase

omit [Unicode] [DecidableEq Id] in
theorem History.last_note_schema (h : History) (s : State Id)
    (a : SchemaCalls.Action) : (h.note s (.schema a)).last = h.last := by
  cases a <;> rfl

omit [Unicode] [DecidableEq Id] in
theorem History.due_note_schema {a : SchemaCalls.Action} (k : Nat)
    (hk : h.due k = true) : (h.note s (.schema a)).due k = true := by
  cases a with
  | start i connection request => exact hk
  | advance i =>
      change (h.due k || s.copiesFor i k) = true
      rw [hk]
      rfl

omit [Unicode] in
/-- A snapshot that the schema service inserts is owed. -/
theorem Owed.inserted {i : Nat} {phase : SchemaCalls.Phase Id}
    (horder : h.InOrder s (.schema (.advance i)))
    (hstep : schemaStep worlds s (.advance i) = some t)
    (hcall : s.schema.calls i = some ⟨c, phase⟩)
    (hinsertion : phase.insertion = some x) (htracks : h.tracks s c = true) :
    Owed (t, h.note s (.schema (.advance i))) c x := by
  obtain ⟨hnext, -, -, -, htasks⟩ := schemaStep_frame hstep
  cases phase with
  | inserting copy incremental =>
      -- the task that waits for the copy is to install it
      obtain rfl := Option.some.inj hinsertion
      obtain ⟨task, htask, hawaited, hconnection⟩ :=
        horder.copied i _ copy incremental rfl hcall rfl htracks
      obtain ⟨k, hk⟩ := List.mem_iff_getElem?.1 htask
      refine .task k task (by rw [htasks]; exact hk) hconnection ?_ ?_
      · change (h.due k || s.copiesFor i k) = true
        simp [State.copiesFor, hcall, hk, hawaited]
      · intro hfinished
        rw [hfinished] at hawaited
        cases hawaited
  | installing base snapshot scope path =>
      obtain rfl := Option.some.inj hinsertion
      obtain ⟨phase', hcall', -⟩ := SchemaCalls.exists_follows hnext hcall
      obtain ⟨u, hu, hcalls, -⟩ := SchemaCalls.next_advance hnext hcall
      have hself : u.calls i = some ⟨c, phase'⟩ := hcalls ▸ hcall'
      exact .publishing i phase' hcall'
        (SchemaCalls.publishes_installing hu hself rfl)
  | _ => cases hinsertion

omit [Unicode] in
theorem Following.schema {a : SchemaCalls.Action}
    (hfollowing : Following (s, h)) (hlinked : Linked s)
    (horder : h.InOrder s (.schema a)) (hstep : schemaStep worlds s a = some t) :
    Following (t, h.note s (.schema a)) := by
  obtain ⟨-, hactive, -⟩ := schemaStep_frame hstep
  intro c x htracks hx
  change (h.note s (.schema a)).tracks t c = true at htracks
  rw [History.tracks, hactive, History.last_note_schema] at htracks
  change t.schema.snapshots c = some x at hx
  have hkept : s.schema.snapshots c = some x →
      Owed (t, h.note s (.schema a)) c x := fun hheld =>
    (hfollowing c x htracks hheld).kept hlinked hstep
      History.due_note_schema
  rcases snapshots_schemaStep hstep with hsame |
    ⟨i, ⟨c', phase⟩, snapshot, rfl, hcall, hinsertion, hupdate⟩
  · rw [hsame] at hx
    exact hkept hx
  · rw [hupdate] at hx
    by_cases hc : c = c'
    · -- the snapshot in memory is the one that is inserted
      subst hc
      rw [Function.update_self] at hx
      obtain rfl := Option.some.inj hx
      exact .inserted horder hstep hcall hinsertion htracks
    · rw [Function.update_of_ne hc] at hx
      exact hkept hx

/-! ## Tasks that go on -/

omit [Unicode] [DecidableEq Id] in
theorem mem_goto {k : Nat} {task task' : Task Id} {phase : TaskPhase Id}
    (htask' : task' ∈ (s.goto k task phase).tasks) :
    task' ∈ s.tasks ∨ task' = { task with phase } :=
  List.mem_or_eq_of_mem_set htask'

omit [Unicode] [DecidableEq Id] in
theorem Linked.goto {k : Nat} {task : Task Id} {phase : TaskPhase Id}
    (hlinked : Linked s)
    (hawaited : ∀ i, phase.awaited = some i →
      ∃ p, s.schema.calls i = some ⟨task.connection, p⟩) :
    Linked (s.goto k task phase) := by
  refine ⟨hlinked.handlers, fun task' htask' i hi => ?_⟩
  rcases mem_goto htask' with hold | rfl
  · exact hlinked.tasks task' hold i hi
  · exact hawaited i hi

omit [Unicode] [DecidableEq Id] in
theorem Current.goto {k : Nat} {task : Task Id} {phase : TaskPhase Id}
    (hcurrent : Current s)
    (hcarries : ∀ y, phase.carries = some y →
      s.schema.snapshots task.connection = some y)
    (hawaited : ∀ i call, phase.awaited = some i →
      s.schema.calls i = some call → call.phase.promised = none) :
    Current (s.goto k task phase) := by
  intro c y hhand
  cases hhand with
  | handler hcall hi => exact hcurrent c y (.handler hcall hi)
  | task htask' hconnection hy =>
      rcases mem_goto htask' with hold | rfl
      · exact hcurrent c y (.task hold hconnection hy)
      · subst hconnection
        exact hcarries y hy
  | awaited htask' hi hcall hy =>
      rcases mem_goto htask' with hold | rfl
      · exact hcurrent c y (.awaited hold hi hcall hy)
      · have hnone := hawaited _ _ hi hcall
        rw [hy] at hnone
        cases hnone

omit [Unicode] [DecidableEq Id] in
/-- What is owed stays owed when a task goes on, unless that task is to install
it and ends. -/
theorem Owed.goto {k : Nat} {task : Task Id} {phase : TaskPhase Id}
    (htask : s.tasks[k]? = some task)
    (hphase : h.due k = true → task.connection = c → phase ≠ .finished)
    (howed : Owed (s, h) c x) : Owed (s.goto k task phase, h) c x := by
  cases howed with
  | installed hhas => exact .installed hhas
  | publishing i phase hcall hpublishes =>
      exact .publishing i phase hcall hpublishes
  | reading i hi => exact .reading i hi
  | handling i hi => exact .handling i hi
  | task l other hother hconnection hdue hother' =>
      by_cases hl : k = l
      · subst hl
        obtain rfl := Option.some.inj (htask.symm.trans hother)
        refine .task k { task with phase } ?_ hconnection hdue
          (hphase hdue hconnection)
        have hlt : k < s.tasks.length := (List.getElem?_eq_some_iff.1 htask).1
        simp [State.goto, hlt]
      · refine .task l other ?_ hconnection hdue hother'
        simpa [State.goto, List.getElem?_set, hl] using hother

/-! ## One step -/

omit [Unicode] [DecidableEq Id] in
/-- Tasks that have just been spawned are linked to nothing. -/
theorem Linked.of_tasks (hlinked : Linked s) (hschema : t.schema = s.schema)
    (hhandlers : t.handlers = s.handlers)
    (htasks : ∀ task ∈ t.tasks, task ∈ s.tasks ∨ task.phase = .starting) :
    Linked t := by
  constructor
  · rw [hschema, hhandlers]
    exact hlinked.handlers
  · rw [hschema]
    intro task htask i hi
    rcases htasks task htask with hold | hphase
    · exact hlinked.tasks task hold i hi
    · rw [hphase] at hi
      cases hi

omit [Unicode] [DecidableEq Id] in
theorem Current.of_tasks (hcurrent : Current s) (hschema : t.schema = s.schema)
    (hhandlers : t.handlers = s.handlers)
    (htasks : ∀ task ∈ t.tasks, task ∈ s.tasks ∨ task.phase = .starting) :
    Current t := by
  intro c y hhand
  rw [hschema]
  refine hcurrent c y ?_
  cases hhand with
  | handler hcall hi =>
      rw [hschema] at hcall
      rw [hhandlers] at hi
      exact .handler hcall hi
  | task htask hconnection hy =>
      rcases htasks _ htask with hold | hphase
      · exact .task hold hconnection hy
      · rw [hphase] at hy
        cases hy
  | awaited htask hi hcall hy =>
      rw [hschema] at hcall
      rcases htasks _ htask with hold | hphase
      · exact .awaited hold hi hcall hy
      · rw [hphase] at hi
        cases hi

omit [Unicode] [DecidableEq Id] in
theorem mem_onStateChanged {id : ConnectionId} {state : ConnectionState}
    {runtime : Bool} {task : Task Id}
    (htask : task ∈ (onStateChanged s id state runtime).tasks) :
    task ∈ s.tasks ∨ task.phase = .starting := by
  unfold onStateChanged at htask
  split at htask
  · cases runtime with
    | false => exact .inl htask
    | true =>
        refine (List.mem_append.1 htask).imp_right fun hnew => ?_
        rw [List.mem_singleton.1 hnew]
  · exact .inl htask

omit [Unicode] [DecidableEq Id] in
theorem onStateChanged_frame (s : State Id) (id : ConnectionId)
    (state : ConnectionState) (runtime : Bool) :
    (onStateChanged s id state runtime).schema = s.schema ∧
      (onStateChanged s id state runtime).handlers = s.handlers ∧
      (onStateChanged s id state runtime).installedSnapshot
        = s.installedSnapshot := by
  unfold onStateChanged
  split <;> exact ⟨rfl, rfl, rfl⟩

omit [Unicode] [DecidableEq Id] in
theorem getElem?_onStateChanged {id : ConnectionId} {state : ConnectionState}
    {runtime : Bool} {k : Nat} {task : Task Id} (htask : s.tasks[k]? = some task) :
    (onStateChanged s id state runtime).tasks[k]? = some task := by
  unfold onStateChanged
  split
  · cases runtime with
    | false => exact htask
    | true =>
        have hlt := (List.getElem?_eq_some_iff.1 htask).1
        exact (List.getElem?_append_left hlt).trans htask
  · exact htask

omit [Unicode] [DecidableEq Id] in
/-- A state change takes nothing from what is owed. -/
theorem Owed.stateChanged {id : ConnectionId} {state : ConnectionState}
    {runtime : Bool} (howed : Owed (s, h) c x) :
    Owed (onStateChanged s id state runtime,
      h.note s (.stateChanged id state runtime)) c x := by
  obtain ⟨hschema, hhandlers, hinstalled⟩ :=
    onStateChanged_frame s id state runtime
  cases howed with
  | installed hhas =>
      refine .installed ?_
      rw [State.has, hinstalled]
      exact hhas
  | publishing i phase hcall hpublishes =>
      refine .publishing i phase ?_ hpublishes
      change (onStateChanged s id state runtime).schema.calls i = _
      rw [hschema]
      exact hcall
  | reading i hi => exact .reading i ((congrFun hhandlers i).trans hi)
  | handling i hi => exact .handling i ((congrFun hhandlers i).trans hi)
  | task k task htask hconnection hdue hphase =>
      refine .task k task (getElem?_onStateChanged htask) hconnection ?_ hphase
      change (h.due k || _) = true
      rw [show h.due k = true from hdue]
      rfl

omit [Unicode] [DecidableEq Id] in
theorem Following.stateChanged {id : ConnectionId} {state : ConnectionState}
    {runtime : Bool} (hfollowing : Following (s, h))
    (horder : h.InOrder s (.stateChanged id state runtime)) :
    Following (onStateChanged s id state runtime,
      h.note s (.stateChanged id state runtime)) := by
  intro c x htracks hx
  have hheld : s.schema.snapshots c = some x := by
    rw [← (onStateChanged_frame s id state runtime).1]
    exact hx
  by_cases hbefore : h.tracks s c = true
  · exact (hfollowing c x hbefore hheld).stateChanged
  · -- only the connection that becomes active is new
    cases hspawns : spawns state with
    | none =>
        have hsame : onStateChanged s id state runtime = s := by
          rw [onStateChanged, hspawns]
        rw [hsame] at htracks
        exact absurd htracks hbefore
    | some kind =>
        have hlast : decide (h.last = some c) = false := by
          simp only [History.tracks, Bool.or_eq_true, not_or,
            Bool.not_eq_true] at hbefore
          exact hbefore.2
        have hid : id = c := by
          change (decide ((onStateChanged s id state runtime).activeConnection =
            some c) || decide (h.last = some c)) = true at htracks
          rw [hlast, Bool.or_false, onStateChanged, hspawns] at htracks
          exact Option.some.inj (of_decide_eq_true htracks)
        subst hid
        have hswitches : h.switches s id state = true := by
          simp [History.switches, hspawns, hheld, hbefore]
        obtain rfl := horder.spawned id state runtime rfl hswitches
        refine .task s.tasks.length ⟨id, kind, .starting⟩ ?_ rfl ?_ ?_
        · change (onStateChanged s id state true).tasks[s.tasks.length]? = _
          rw [onStateChanged, hspawns]
          simp
        · change (h.due s.tasks.length || h.switches s id state &&
            decide (s.tasks.length = s.tasks.length)) = true
          simp [hswitches]
        · rintro ⟨⟩

omit [Unicode] [DecidableEq Id] in
theorem Linked.read {i : Nat} {g : Option (Handler Id)} (hlinked : Linked s)
    (hi : s.handlers i ≠ none)
    (hg : ∀ handler, g = some handler → ∀ c, handler.Of c) :
    Linked { s with handlers := Function.update s.handlers i g } := by
  refine ⟨fun j handler hj => ?_, hlinked.tasks⟩
  by_cases hji : j = i
  · subst hji
    dsimp only at hj
    rw [Function.update_self] at hj
    obtain ⟨before, hbefore⟩ := Option.ne_none_iff_exists'.1 hi
    obtain ⟨c, reply, hcall, -⟩ := hlinked.handlers j before hbefore
    exact ⟨c, reply, hcall, hg handler hj c⟩
  · dsimp only at hj
    rw [Function.update_of_ne hji] at hj
    exact hlinked.handlers j handler hj

/-- Everything is linked, current and followed. -/
structure Tracked (p : State Id × History) : Prop where
  linked : Linked p.1
  current : Current p.1
  following : Following p

omit [Unicode] [DecidableEq Id] in
/-- A handler that looks at memory finds what is still there. -/
theorem Tracked.reads {i : Nat} {id : SchemaSnapshotId}
    (htracked : Tracked (s, h)) (hi : s.handlers i = some (.reading c id)) :
    Tracked ({ s with
      handlers := Function.update s.handlers i
        (((s.schema.snapshots c).filter fun loaded =>
          decide (loaded.id = id)).map .installing) }, h) := by
  refine ⟨htracked.linked.read (by rw [hi]; rintro ⟨⟩) ?_, ?_, ?_⟩
  · intro handler hhandler c'
    obtain ⟨loaded, -, rfl⟩ := Option.map_eq_some_iff.1 hhandler
    trivial
  · intro c' y hhand
    cases hhand with
    | task htask hconnection hy =>
        exact htracked.current c' y (.task htask hconnection hy)
    | awaited htask hawaited hcall hy =>
        exact htracked.current c' y (.awaited htask hawaited hcall hy)
    | handler hcall hj =>
        rename_i j phase
        dsimp only at hj hcall
        by_cases hji : j = i
        · subst hji
          rw [Function.update_self] at hj
          obtain ⟨loaded, hloaded, heq⟩ := Option.map_eq_some_iff.1 hj
          obtain rfl := Handler.installing.inj heq
          obtain ⟨c'', reply, hcall', hof⟩ := htracked.linked.handlers j _ hi
          obtain rfl : c = c'' := hof
          rw [hcall'] at hcall
          obtain ⟨rfl, -⟩ := SchemaCalls.Call.mk.inj (Option.some.inj hcall)
          exact (Option.filter_eq_some_iff.1 hloaded).1
        · rw [Function.update_of_ne hji] at hj
          exact htracked.current c' y (.handler hcall hj)
  · intro c' x htracks hx
    have hheld : s.schema.snapshots c' = some x := hx
    cases htracked.following c' x htracks hheld with
    | installed hhas => exact .installed hhas
    | publishing j phase hcall hpublishes =>
        exact .publishing j phase hcall hpublishes
    | task k task htask hconnection hdue hphase =>
        exact .task k task htask hconnection hdue hphase
    | reading j hj =>
        by_cases hji : j = i
        · -- memory still holds what the event tells of
          subst hji
          change s.handlers j = _ at hj
          rw [hi] at hj
          obtain ⟨rfl, rfl⟩ := Handler.reading.inj (Option.some.inj hj)
          refine .handling j ?_
          simp [hheld]
        · exact .reading j ((Function.update_of_ne hji ..).trans hj)
    | handling j hj =>
        have hji : j ≠ i := by
          rintro rfl
          change s.handlers j = _ at hj
          rw [hi] at hj
          cases hj
        exact .handling j ((Function.update_of_ne hji ..).trans hj)

/-! ## Installations -/

@[simp] theorem installSnapshot_activeConnection :
    (s.installSnapshot y).activeConnection = s.activeConnection := by
  unfold State.installSnapshot
  split <;> rfl

@[simp] theorem installSnapshot_tasks :
    (s.installSnapshot y).tasks = s.tasks := by
  unfold State.installSnapshot
  split <;> rfl

@[simp] theorem installSnapshot_handlers :
    (s.installSnapshot y).handlers = s.handlers := by
  unfold State.installSnapshot
  split <;> rfl

theorem has_installSnapshot (s : State Id) (y : SchemaSnapshot Id) :
    (s.installSnapshot y).has y = true := by
  unfold State.installSnapshot
  split
  · assumption
  · simp [State.has]

omit [Unicode] [DecidableEq Id] in
/-- Once a snapshot that is current is installed, nothing else is owed. -/
theorem Following.of_installs (hinstalls : s.installs a = some c)
    (horder : h.InOrder s a) (hhand : s.InHand c y) (hcurrent : Current s)
    (hschema : t.schema = s.schema)
    (hactive : t.activeConnection = s.activeConnection)
    (hhas : t.has y = true) : Following (t, h.note s a) := by
  intro c' x htracks hx
  have hnote : h.note s a = { last := some c, due := fun _ => false } := by
    simp only [History.note, hinstalls]
  have hc : c = c' := by
    change (h.note s a).tracks t c' = true at htracks
    simpa [hnote, History.tracks, hactive, horder.active c hinstalls] using htracks
  subst hc
  change t.schema.snapshots c = some x at hx
  rw [hschema, hcurrent c y hhand] at hx
  obtain rfl := Option.some.inj hx
  exact .installed hhas

omit [Unicode] [DecidableEq Id] in
theorem History.note_of_not_installs {k call : Nat}
    (hinstalls : s.installs (.task k call) = none) :
    h.note s (.task k call) = h := by
  simp only [History.note, hinstalls]

theorem Tracked.handle {i : Nat} (htracked : Tracked (s, h))
    (horder : h.InOrder s (.handle i)) (hstep : handleStep s i = some t) :
    Tracked (t, h.note s (.handle i)) := by
  unfold handleStep at hstep
  split at hstep
  · cases hstep
  · rename_i connection id hi
    obtain rfl := Option.some.inj hstep
    have hnote : h.note s (.handle i) = h := by
      simp only [History.note, State.installs, hi]
    rw [hnote]
    exact htracked.reads hi
  · rename_i loaded hi
    obtain rfl := Option.some.inj hstep
    obtain ⟨c, reply, hcall, -⟩ := htracked.linked.handlers i _ hi
    change s.schema.calls i = _ at hcall
    have hinstalls : s.installs (.handle i) = some c := by
      simp only [State.installs, hi, hcall, Option.map_some]
    have hlinked : Linked (s.installSnapshot loaded) :=
      htracked.linked.of_tasks installSnapshot_schema installSnapshot_handlers
        (by simp +contextual)
    have hcurrent : Current (s.installSnapshot loaded) :=
      htracked.current.of_tasks installSnapshot_schema installSnapshot_handlers
        (by simp +contextual)
    refine ⟨hlinked.read ?_ (by rintro _ ⟨⟩), ?_, ?_⟩
    · rw [installSnapshot_handlers, hi]
      rintro ⟨⟩
    · intro c' y hhand
      refine hcurrent c' y ?_
      cases hhand with
      | task htask hconnection hy => exact .task htask hconnection hy
      | awaited htask hawaited hcall hy => exact .awaited htask hawaited hcall hy
      | handler hcall hj =>
          rename_i j phase
          dsimp only at hj
          by_cases hji : j = i
          · subst hji
            rw [Function.update_self] at hj
            cases hj
          · rw [Function.update_of_ne hji] at hj
            exact .handler hcall hj
    · exact .of_installs hinstalls horder (.handler hcall hi) htracked.current
        installSnapshot_schema installSnapshot_activeConnection
        (has_installSnapshot s loaded)

omit [Unicode] [DecidableEq Id] in
/-- The starts of calls are in order. -/
theorem History.inOrder_start (h : History) (s : State Id) (i : Nat)
    (c : ConnectionId) (request : SchemaCalls.Request) :
    h.InOrder s (.schema (.start i c request)) :=
  ⟨(by rintro _ ⟨⟩), (by rintro _ _ _ _ ⟨⟩), (by rintro _ _ _ _ ⟨⟩),
    (by rintro _ _ _ ⟨⟩), (by rintro _ _ _ _ _ ⟨⟩)⟩

omit [Unicode] in
theorem Tracked.schema {a : SchemaCalls.Action} (htracked : Tracked (s, h))
    (horder : h.InOrder s (.schema a)) (hstep : schemaStep worlds s a = some t) :
    Tracked (t, h.note s (.schema a)) :=
  ⟨htracked.linked.schema hstep,
    htracked.current.schema htracked.linked horder hstep,
    htracked.following.schema htracked.linked horder hstep⟩

omit [Unicode] in
/-- A call that starts has promised nothing. -/
theorem schemaStep_start {i : Nat} {request : SchemaCalls.Request}
    (hstep : schemaStep worlds s (.start i c request) = some t) :
    t.schema.calls i = some ⟨c, SchemaCalls.firstPhase request⟩ ∧
      (SchemaCalls.firstPhase request : SchemaCalls.Phase Id).promised = none := by
  obtain ⟨hnext, -⟩ := schemaStep_frame hstep
  rcases SchemaCalls.next_cases hnext with ⟨_, _, _, ha, -, hcalls, -⟩ |
    ⟨_, _, _, ha, -⟩
  · obtain ⟨rfl, rfl, rfl⟩ := SchemaCalls.Action.start.inj ha
    refine ⟨by rw [hcalls, Function.update_self], ?_⟩
    cases request <;> rfl
  · cases ha

omit [Unicode] in
/-- A task that starts a call waits for it. -/
theorem Tracked.started {k call : Nat} {task : Task Id} {phase : TaskPhase Id}
    {request : SchemaCalls.Request} (htracked : Tracked (s, h))
    (htask : s.tasks[k]? = some task)
    (hstart : schemaStep worlds s (.start call task.connection request) = some t)
    (hcarries : phase.carries = none) (hawaited : phase.awaited = some call) :
    Tracked (t.goto k task phase, h) := by
  have hstarted : Tracked (t, h) :=
    htracked.schema (h.inOrder_start s call task.connection request) hstart
  obtain ⟨hcall, hpromised⟩ := schemaStep_start hstart
  obtain ⟨-, -, -, -, htasks⟩ := schemaStep_frame hstart
  refine ⟨hstarted.linked.goto ?_, hstarted.current.goto ?_ ?_, ?_⟩
  · rintro i hi
    obtain rfl := Option.some.inj (hawaited.symm.trans hi)
    exact ⟨_, hcall⟩
  · intro y hy
    rw [hcarries] at hy
    cases hy
  · intro i other hi hother
    obtain rfl := Option.some.inj (hawaited.symm.trans hi)
    obtain rfl := Option.some.inj (hcall.symm.trans hother)
    exact hpromised
  · intro c x htracks hx
    refine (hstarted.following c x htracks hx).goto
      (by rw [htasks]; exact htask) fun _ _ hfinished => ?_
    rw [hfinished] at hawaited
    cases hawaited

omit [Unicode] [DecidableEq Id] in
/-- The failures are shown, and nothing is owed for them. -/
theorem Owed.of_failures {failures : List (ConnectionId × String)}
    (howed : Owed (s, h) c x) : Owed ({ s with failures }, h) c x := by
  cases howed with
  | installed hhas => exact .installed hhas
  | publishing i phase hcall hpublishes =>
      exact .publishing i phase hcall hpublishes
  | reading i hi => exact .reading i hi
  | handling i hi => exact .handling i hi
  | task k task htask hconnection hdue hphase =>
      exact .task k task htask hconnection hdue hphase

omit [Unicode] [DecidableEq Id] in
/-- A task goes on with the reply that it has waited for. -/
theorem Tracked.resumed {k call i : Nat} {task : Task Id}
    {reply : SchemaCalls.Reply Id}
    {failures : List (ConnectionId × String)}
    (htracked : Tracked (s, h)) (horder : h.InOrder s (.task k call))
    (htask : s.tasks[k]? = some task) (hawaited : task.phase.awaited = some i)
    (hreply : s.reply i = some reply) :
    Tracked ({ s with failures }.goto k task (task.resume reply), h) := by
  have hmem : task ∈ s.tasks := List.mem_of_getElem? htask
  have hlinked : Linked { s with failures } :=
    htracked.linked.of_tasks rfl rfl fun _ => .inl
  have hcurrent : Current { s with failures } :=
    htracked.current.of_tasks rfl rfl fun _ => .inl
  refine ⟨hlinked.goto ?_, hcurrent.goto ?_ ?_, ?_⟩
  · intro j hj
    rw [awaited_resume] at hj
    cases hj
  · intro y hy
    obtain ⟨path, rfl⟩ := carries_resume hy
    obtain ⟨connection, hcall⟩ := reply_eq_some hreply
    obtain ⟨phase, hcall'⟩ := htracked.linked.tasks task hmem i hawaited
    change s.schema.calls i = _ at hcall'
    obtain ⟨rfl, -⟩ :=
      SchemaCalls.Call.mk.inj (Option.some.inj (hcall.symm.trans hcall'))
    exact htracked.current _ y (.awaited hmem hawaited hcall rfl)
  · intro j other hj
    rw [awaited_resume] at hj
    cases hj
  · intro c x htracks hx
    have howed : Owed (s, h) c x := htracked.following c x htracks hx
    refine howed.of_failures.goto htask fun hdue hconnection => ?_
    subst hconnection
    exact horder.kept k call task i reply rfl htask hdue htracks hawaited hreply

/-- A task installs the snapshot that it has at hand. -/
theorem Tracked.installed {k call : Nat} {task : Task Id} {phase : TaskPhase Id}
    (htracked : Tracked (s, h)) (horder : h.InOrder s (.task k call))
    (htask : s.tasks[k]? = some task)
    (hinstalls : s.installs (.task k call) = some task.connection)
    (hy : task.phase.carries = some y) (hcarries : phase.carries = none)
    (hawaited : phase.awaited = none) :
    Tracked ((s.installSnapshot y).goto k task phase,
      h.note s (.task k call)) := by
  have hmem : task ∈ s.tasks := List.mem_of_getElem? htask
  have hlinked : Linked (s.installSnapshot y) :=
    htracked.linked.of_tasks installSnapshot_schema installSnapshot_handlers
      (by simp +contextual)
  have hcurrent : Current (s.installSnapshot y) :=
    htracked.current.of_tasks installSnapshot_schema installSnapshot_handlers
      (by simp +contextual)
  refine ⟨hlinked.goto ?_, hcurrent.goto ?_ ?_, ?_⟩
  · intro j hj
    rw [hawaited] at hj
    cases hj
  · intro z hz
    rw [hcarries] at hz
    cases hz
  · intro j other hj
    rw [hawaited] at hj
    cases hj
  · exact .of_installs hinstalls horder (.task hmem rfl hy) htracked.current
      installSnapshot_schema installSnapshot_activeConnection
      (has_installSnapshot s y)

theorem Tracked.task {k call : Nat} {task : Task Id} (htracked : Tracked (s, h))
    (horder : h.InOrder s (.task k call)) (htask : s.tasks[k]? = some task)
    (hstep : taskStep worlds s k task call = some t) :
    Tracked (t, h.note s (.task k call)) := by
  have hinstalls : s.installs (.task k call) =
      task.phase.carries.map fun _ => task.connection := by
    simp [State.installs, htask]
  have hnote : task.phase.carries = none → h.note s (.task k call) = h := by
    intro hcarries
    rw [hcarries] at hinstalls
    exact History.note_of_not_installs hinstalls
  rcases taskStep_cases hstep with
    ⟨request, u, phase, hnone, hu, hcarries, hawaited, rfl⟩ |
    ⟨i, reply, failures, hnone, hawaited, hreply, rfl⟩ |
    ⟨y, phase, hy, hcarries, hawaited, rfl⟩
  · rw [hnote hnone]
    exact htracked.started htask hu hcarries hawaited
  · rw [hnote hnone]
    exact htracked.resumed horder htask hawaited hreply
  · rw [hy] at hinstalls
    exact htracked.installed horder htask hinstalls hy hcarries hawaited

theorem Tracked.next {a : Action} (htracked : Tracked (s, h))
    (horder : h.InOrder s a) (hstep : next worlds s a = some t) :
    Tracked (t, h.note s a) := by
  cases a with
  | stateChanged id state runtime =>
      obtain rfl := Option.some.inj hstep
      obtain ⟨hschema, hhandlers, -⟩ := onStateChanged_frame s id state runtime
      exact ⟨htracked.linked.of_tasks hschema hhandlers fun _ => mem_onStateChanged,
        htracked.current.of_tasks hschema hhandlers fun _ => mem_onStateChanged,
        htracked.following.stateChanged horder⟩
  | schema a => exact htracked.schema horder hstep
  | handle i => exact htracked.handle horder hstep
  | task k call =>
      obtain ⟨task, htask, hmoved⟩ := Option.bind_eq_some_iff.1 hstep
      exact htracked.task horder htask hmoved

theorem tracked_of_fresh (hfresh : Fresh worlds s) : Tracked (s, .empty) := by
  refine ⟨⟨?_, ?_⟩, ?_, ?_⟩
  · intro i handler hi
    rw [hfresh.handlers i] at hi
    cases hi
  · intro task htask
    rw [hfresh.tasks] at htask
    cases htask
  · intro c y hhand
    cases hhand with
    | handler _ hi =>
        rw [hfresh.handlers] at hi
        cases hi
    | task htask _ _ =>
        rw [hfresh.tasks] at htask
        cases htask
    | awaited htask _ _ _ =>
        rw [hfresh.tasks] at htask
        cases htask
  · intro c x _ hx
    change s.schema.snapshots c = some x at hx
    rw [hfresh.schema.snapshots c] at hx
    cases hx

end Steps

/-! ## Runs -/

variable {worlds : ConnectionId → World Id} {s t : State Id} {h : History}

omit [Unicode] [DecidableEq Id] in
/-- Once nothing is under way, what is owed has been installed. -/
theorem Owed.has_of_quiet {p : State Id × History} {c : ConnectionId}
    {x : SchemaSnapshot Id} (howed : Owed p c x) (hquiet : p.1.Quiet) :
    p.1.has x = true := by
  cases howed with
  | installed hhas => exact hhas
  | publishing i phase hcall hpublishes =>
      obtain ⟨reply, hreply⟩ := hquiet.calls i _ hcall
      obtain rfl : phase = .finished reply := hreply
      cases hpublishes
  | reading i hi =>
      rw [hquiet.handlers i] at hi
      cases hi
  | handling i hi =>
      rw [hquiet.handlers i] at hi
      cases hi
  | task k task htask _ _ hphase =>
      exact absurd (hquiet.tasks task (List.mem_of_getElem? htask)) hphase

/-- As long as nothing out of date is left on its way, the catalog is built from
the snapshot of the active connection once everything has finished. -/
theorem catalog_follows_active {p : State Id × History} {c : ConnectionId}
    {x : SchemaSnapshot Id} (hreachable : (orderlySystem worlds).Reachable p)
    (hquiet : p.1.Quiet) (hactive : p.1.activeConnection = some c)
    (hx : p.1.schema.snapshots c = some x) :
    p.1.catalog = .fromSnapshot x := by
  have hinvariant : Traceable worlds p.1 ∧ Tracked p := by
    refine hreachable.invariant
      (I := fun p => Traceable worlds p.1 ∧ Tracked p) ?_ ?_
    · rintro ⟨s, h⟩ ⟨hfresh, rfl⟩
      exact ⟨traceable_of_fresh hfresh, tracked_of_fresh hfresh⟩
    · rintro ⟨s, h⟩ a ⟨t, h'⟩ ⟨⟨hstep, hnote⟩, horder⟩ ⟨htraceable, htracked⟩
      obtain rfl : h' = h.note s a := hnote
      exact ⟨htraceable.next hstep, htracked.next horder hstep⟩
  obtain ⟨⟨-, known, hknown, -⟩, htracked⟩ := hinvariant
  have htracks : p.2.tracks p.1 c = true := by
    simp [History.tracks, hactive]
  have hhas : p.1.installedSnapshot = some x.id :=
    of_decide_eq_true ((htracked.following c x htracks hx).has_of_quiet hquiet)
  obtain ⟨y, hid, hy, hcatalog⟩ := hknown.installed x.id hhas
  -- the installed id names one snapshot only
  have hnamed : Named known x := hknown.schema.snapshots c x hx
  have heq : some y = some x := by
    rw [← hy, ← hnamed, hid]
  rw [hcatalog, Option.some.inj heq]

/-! ## Runs of few calls -/

/-- The call that a step may start. -/
def Action.call : Action → Option Nat
  | .schema (.start i _ _) => some i
  | .task _ i => some i
  | _ => none

/-- Neither call `i` nor its handler has been there. -/
def State.Untouched (s : State Id) (i : Nat) : Prop :=
  s.schema.calls i = none ∧ s.handlers i = none

omit [Unicode] in
theorem schemaStep_untouched {a : SchemaCalls.Action} {i : Nat}
    (hstep : schemaStep worlds s a = some t)
    (hi : ∀ c request, a ≠ .start i c request) (hs : s.Untouched i) :
    t.Untouched i := by
  obtain ⟨hnext, -⟩ := schemaStep_frame hstep
  constructor
  · rcases SchemaCalls.next_cases hnext with ⟨j, c, request, rfl, -, hcalls, -⟩ |
      ⟨j, call, phase, -, hj, hcalls, -⟩
    · have hne : i ≠ j := by
        rintro rfl
        exact hi c request rfl
      rw [hcalls, Function.update_of_ne hne]
      exact hs.1
    · have hne : i ≠ j := by
        rintro rfl
        rw [hs.1] at hj
        cases hj
      rw [hcalls, Function.update_of_ne hne]
      exact hs.1
  · rw [Option.eq_none_iff_forall_ne_some]
    intro handler hhandler
    rcases schemaStep_handlers hstep hhandler with hold |
      ⟨c, snapshot, path, -, hcall, -⟩
    · rw [hs.2] at hold
      cases hold
    · rw [hs.1] at hcall
      cases hcall

/-- A call that no step starts is not there, and neither is its handler. -/
theorem next_untouched {a : Action} {i : Nat}
    (hstep : next worlds s a = some t) (hi : a.call ≠ some i)
    (hs : s.Untouched i) : t.Untouched i := by
  cases a with
  | stateChanged id state runtime =>
      obtain rfl := Option.some.inj hstep
      obtain ⟨hschema, hhandlers, -⟩ := onStateChanged_frame s id state runtime
      rw [State.Untouched, hschema, hhandlers]
      exact hs
  | schema a =>
      refine schemaStep_untouched hstep ?_ hs
      rintro c request rfl
      exact hi rfl
  | handle j =>
      have hne : i ≠ j := by
        rintro rfl
        change handleStep s i = some t at hstep
        rw [handleStep, hs.2] at hstep
        cases hstep
      refine ⟨by rw [handleStep_schema hstep]; exact hs.1, ?_⟩
      change handleStep s j = some t at hstep
      unfold handleStep at hstep
      split at hstep
      · cases hstep
      · obtain rfl := Option.some.inj hstep
        exact (Function.update_of_ne hne _ _).trans hs.2
      · obtain rfl := Option.some.inj hstep
        refine (Function.update_of_ne hne _ _).trans ?_
        rw [installSnapshot_handlers]
        exact hs.2
  | task k call =>
      obtain ⟨task, -, hmoved⟩ := Option.bind_eq_some_iff.1 hstep
      rcases taskStep_cases hmoved with
        ⟨request, u, phase, -, hu, -, -, rfl⟩ |
        ⟨j, reply, failures, -, -, -, rfl⟩ | ⟨y, phase, -, -, -, rfl⟩
      · have hu' : u.Untouched i := by
          refine schemaStep_untouched hu ?_ hs
          rintro c' request' ⟨⟩
          exact hi rfl
        exact hu'
      · exact hs
      · change (s.installSnapshot y).Untouched i
        rw [State.Untouched, installSnapshot_schema, installSnapshot_handlers]
        exact hs

theorem untouched_of_below {a : Action} {n : Nat}
    (hs : ∀ i, n ≤ i → s.Untouched i)
    (hcall : a.call.all (fun i => decide (i < n)) = true)
    (hstep : next worlds s a = some t) (i : Nat) (hi : n ≤ i) :
    t.Untouched i := by
  refine next_untouched hstep (fun h => ?_) (hs i hi)
  rw [h] at hcall
  exact absurd (of_decide_eq_true hcall) (Nat.not_lt.2 hi)

def TaskPhase.isFinished : TaskPhase Id → Bool
  | .finished => true
  | _ => false

/-- No task, and none of the first `n` calls and handlers, is under way. -/
def State.quietBelow (s : State Id) (n : Nat) : Bool :=
  s.tasks.all (fun task => task.phase.isFinished) &&
    (List.range n).all fun i =>
      (s.handlers i).isNone &&
        (s.schema.calls i).all fun call => call.phase.isFinished

omit [Unicode] [DecidableEq Id] in
theorem TaskPhase.eq_finished {phase : TaskPhase Id}
    (h : phase.isFinished = true) : phase = .finished := by
  cases phase with
  | finished => rfl
  | _ => cases h

omit [Unicode] [DecidableEq Id] in
theorem State.Quiet.of_below {n : Nat} (h : s.quietBelow n = true)
    (hrest : ∀ i, n ≤ i → s.Untouched i) :
    s.Quiet := by
  simp only [State.quietBelow, Bool.and_eq_true, List.all_eq_true,
    List.mem_range] at h
  obtain ⟨htasks, hcalls⟩ := h
  refine ⟨fun task htask => TaskPhase.eq_finished (htasks task htask), ?_, ?_⟩
  · intro i
    by_cases hi : i < n
    · simpa using (hcalls i hi).1
    · exact (hrest i (Nat.le_of_not_lt hi)).2
  · intro i call hcall
    by_cases hi : i < n
    · refine SchemaCalls.Phase.eq_finished ?_
      simpa [hcall] using (hcalls i hi).2
    · rw [(hrest i (Nat.le_of_not_lt hi)).1] at hcall
      cases hcall

/-- The snapshots of connection `c` that are about to be installed, with the
handlers of the first `n` calls. -/
def State.inHandBelow (s : State Id) (n : Nat) (c : ConnectionId) :
    List (SchemaSnapshot Id) :=
  let ofCall (i : Nat) (y : SchemaCalls.Phase Id → Option (SchemaSnapshot Id)) :=
    (s.schema.calls i).bind fun call =>
      if call.connection = c then y call.phase else none
  (List.range n).filterMap (fun i => ofCall i fun _ =>
      match s.handlers i with
      | some (.installing y) => some y
      | _ => none)
    ++ s.tasks.filterMap (fun task =>
      if task.connection = c then task.phase.carries else none)
    ++ s.tasks.filterMap fun task =>
      task.phase.awaited.bind fun i => ofCall i SchemaCalls.Phase.promised

/-- The test for order if only the first `n` calls have handlers. -/
def inOrderBelow (n : Nat) (p : State Id × History) (a : Action) : Bool :=
  a.call.all (fun i => decide (i < n)) &&
  (p.1.installs a).all (fun c => decide (p.1.activeConnection = some c)) &&
  match a with
  | .stateChanged id state runtime => !p.2.switches p.1 id state || runtime
  | .schema (.advance i) =>
      (p.1.schema.calls i).all fun call =>
        (call.phase.insertion.all fun x =>
          (p.1.inHandBelow n call.connection).all fun y => decide (y = x)) &&
        match call.phase with
        | .inserting _ _ =>
            !p.2.tracks p.1 call.connection || p.1.tasks.any fun task =>
              decide (task.phase.awaited = some i ∧
                task.connection = call.connection)
        | _ => true
  | .task k _ =>
      p.1.tasks[k]?.all fun task =>
        !p.2.due k || !p.2.tracks p.1 task.connection ||
          (task.phase.awaited.bind p.1.reply).all fun reply =>
            !(task.resume reply).isFinished
  | _ => true

omit [Unicode] [DecidableEq Id] in
theorem State.InHand.mem_below {n : Nat} {c : ConnectionId}
    {y : SchemaSnapshot Id} (hrest : ∀ i, n ≤ i → s.Untouched i)
    (hhand : s.InHand c y) : y ∈ s.inHandBelow n c := by
  simp only [State.inHandBelow, List.mem_append, List.mem_filterMap,
    List.mem_range]
  cases hhand with
  | handler hcall hi =>
      rename_i i phase
      refine .inl (.inl ⟨i, ?_, by simp [hcall, hi]⟩)
      by_contra hge
      rw [(hrest i (Nat.le_of_not_lt hge)).2] at hi
      cases hi
  | task htask hconnection hy =>
      exact .inl (.inr ⟨_, htask, by simp [hconnection, hy]⟩)
  | awaited htask hawaited hcall hy =>
      exact .inr ⟨_, htask, by simp [hawaited, hcall, hy]⟩

omit [Unicode] in
theorem inOrder_of_below {n : Nat} {a : Action}
    (hrest : ∀ i, n ≤ i → s.Untouched i)
    (hbelow : inOrderBelow n (s, h) a = true) : h.InOrder s a := by
  simp only [inOrderBelow, Bool.and_eq_true] at hbelow
  obtain ⟨⟨-, hactive⟩, hrule⟩ := hbelow
  refine ⟨?_, ?_, ?_, ?_, ?_⟩
  · intro c hc
    simpa [hc] using hactive
  · rintro i call x y rfl hcall hinsertion hhand
    simp only [hcall, Option.all_some, hinsertion, Bool.and_eq_true,
      List.all_eq_true, decide_eq_true_eq] at hrule
    exact hrule.1 y (hhand.mem_below hrest)
  · rintro i call copy incremental rfl hcall hphase htracks
    simp only [hcall, Option.all_some, hphase, htracks, Bool.not_true,
      Bool.false_or, Bool.and_eq_true, List.any_eq_true,
      decide_eq_true_eq] at hrule
    exact hrule.2
  · rintro id state runtime rfl hswitches
    simpa [hswitches] using hrule
  · rintro k call task i reply rfl htask hdue htracks hawaited hreply hfinished
    simp [htask, hdue, htracks, hawaited, hreply, hfinished,
      TaskPhase.isFinished] at hrule

/-- A run of `n` calls whose steps pass the test is in order. -/
theorem run_of_below {n : Nat} {p q : State Id × History} {as : List Action}
    (hrest : ∀ i, n ≤ i → p.1.Untouched i)
    (hfollow : System.follow (System.guarded
      (System.watchNext (next worlds) History.note) (inOrderBelow n)) p as
        = some q) :
    (orderlySystem worlds).Run p as q ∧ ∀ i, n ≤ i → q.1.Untouched i := by
  refine System.run_of_follow_where
    (I := fun p => ∀ i, n ≤ i → p.1.Untouched i) ?_ hrest hfollow
  rintro ⟨s, h⟩ a ⟨t, h'⟩ hs hstep
  unfold System.guarded at hstep
  split at hstep
  · rename_i hbelow
    have hwatched : (System.watch (system worlds) History.empty
        History.note).step (s, h) a (t, h') :=
      System.watch_step_of_watchNext _ _ _ hstep
    refine ⟨⟨hwatched, inOrder_of_below hs hbelow⟩, ?_⟩
    simp only [inOrderBelow, Bool.and_eq_true] at hbelow
    exact untouched_of_below hs hbelow.1.1 hwatched.1
  · cases hstep

end Model

section Sample

local instance asciiFollowing : Unicode := Unicode.ascii

/-- The id of the `i`th snapshot of a connection. -/
def snapshotUuid (c : ConnectionId) (i : Nat) : SchemaSnapshotId :=
  ⟨String.ofList (List.replicate i '|' ++ '/' :: c.text.toList)⟩

theorem replicate_append_inj {i j : Nat} {l l' : List Char}
    (h : List.replicate i '|' ++ '/' :: l = List.replicate j '|' ++ '/' :: l') :
    i = j ∧ l = l' := by
  induction i generalizing j with
  | zero =>
      cases j with
      | zero => exact ⟨rfl, List.tail_eq_of_cons_eq h⟩
      | succ j => exact absurd (List.head_eq_of_cons_eq h) (by decide)
  | succ i ih =>
      cases j with
      | zero => exact absurd (List.head_eq_of_cons_eq h) (by decide)
      | succ j =>
          obtain ⟨rfl, hl⟩ := ih (List.tail_eq_of_cons_eq h)
          exact ⟨rfl, hl⟩

theorem snapshotUuid_inj {c c' : ConnectionId} {i j : Nat}
    (h : snapshotUuid c i = snapshotUuid c' j) : c = c' ∧ i = j := by
  have htext := String.ofList_injective (SchemaSnapshotId.mk.inj h)
  obtain ⟨hij, hl⟩ := replicate_append_inj htext
  obtain ⟨text⟩ := c
  obtain ⟨text'⟩ := c'
  obtain rfl : text = text' := String.toList_injective hl
  exact ⟨rfl, hij⟩

/-- Servers at rest, and no disk. -/
def restingServers (c : ConnectionId) : World ObjectId :=
  { changingServer 0 threeFunctions threeFunctions with
    snapshotId := snapshotUuid c }

/-- A new service. -/
def newService : State ObjectId where
  schema := .new
  activeConnection := none
  installedSnapshot := none
  catalog := .fromSnapshot (emptySnapshot ⟨"0"⟩ ⟨"0"⟩)
  tasks := []
  handlers _ := none
  failures := []

theorem fresh_newService : Fresh restingServers newService where
  schema := SchemaCalls.fresh_new
  distinct :=
    ⟨fun _ _ _ _ h => snapshotUuid_inj h, by rintro _ _ _ _ ⟨⟩,
      by rintro _ _ _ _ ⟨⟩⟩
  activeConnection := rfl
  installedSnapshot := rfl
  catalog := ⟨_, _, rfl⟩
  tasks := rfl
  handlers _ := rfl

/-- `count` steps of call `i` of the schema service. -/
def callSteps (i count : Nat) : List Action :=
  List.replicate count (.schema (.advance i))

/-- A connection is made: its task `0` loads what is on disk, and asks the server,
up to the event of its refresh, call `1`. -/
def arrives (id : ConnectionId) : List Action :=
  [.stateChanged id .connected true, .task 0 0] ++ callSteps 0 1
    ++ [.task 0 0, .task 0 1] ++ callSteps 1 10 ++ [.handle 1, .handle 1]

/-- The task takes the reply and installs it. -/
def arrived : List Action :=
  [.task 0 0, .task 0 0]

/-- Another refresh, call `2`. -/
def refreshes (id : ConnectionId) : List Action :=
  .schema (.start 2 id .refresh) :: callSteps 2 7 ++ [.handle 2, .handle 2]

/-- A connection is made and refreshed. -/
theorem catalog_follows_active_refreshed :
    ∃ (s : State ObjectId) (x : SchemaSnapshot ObjectId),
      s.schema.snapshots ⟨"a"⟩ = some x ∧ x.version = 2 ∧
        s.catalog = .fromSnapshot x := by
  let after := System.follow (System.guarded
    (System.watchNext (next restingServers) History.note) (inOrderBelow 3))
    (newService, .empty) (arrives ⟨"a"⟩ ++ arrived ++ refreshes ⟨"a"⟩)
  have hafter : after.map (fun p => (p.1.quietBelow 3, p.1.activeConnection,
      (p.1.schema.snapshots ⟨"a"⟩).map SchemaSnapshot.version))
      = some (true, some ⟨"a"⟩, some 2) := by
    decide
  obtain ⟨p, hp, hend⟩ := Option.map_eq_some_iff.1 hafter
  simp only [Prod.mk.injEq] at hend
  obtain ⟨hbelow, hactive, hheld⟩ := hend
  obtain ⟨x, hx, hversion⟩ := Option.map_eq_some_iff.1 hheld
  obtain ⟨hrun, hrest⟩ := run_of_below (fun _ _ => ⟨rfl, rfl⟩) hp
  have hinit : (orderlySystem restingServers).init (newService, .empty) :=
    ⟨fresh_newService, rfl⟩
  exact ⟨p.1, x, hx, hversion,
    catalog_follows_active ⟨_, _, hinit, hrun⟩ (.of_below hbelow hrest) hactive
      hx⟩

/-- The task of a connection installs its snapshot over that of a refresh which
has come in between. -/
theorem task_installs_over_refresh :
    ¬ ∀ (worlds : ConnectionId → World ObjectId) (s : State ObjectId)
      (c : ConnectionId) (x : SchemaSnapshot ObjectId),
      (system worlds).Reachable s → s.Quiet → s.activeConnection = some c →
        s.schema.snapshots c = some x → s.catalog = .fromSnapshot x := by
  intro hclaim
  let late := arrives ⟨"a"⟩ ++ refreshes ⟨"a"⟩ ++ arrived
  let few (_ : State ObjectId) (a : Action) : Bool :=
    a.call.all fun i => decide (i < 3)
  let after := System.follow (System.guarded (next restingServers) few)
    newService late
  have hafter : after.map (fun s => (s.quietBelow 3, s.activeConnection,
      (s.schema.snapshots ⟨"a"⟩).map SchemaSnapshot.version,
      s.catalog.snapshotVersion))
      = some (true, some ⟨"a"⟩, some 2, 1) := by
    decide
  obtain ⟨s, hs, hend⟩ := Option.map_eq_some_iff.1 hafter
  simp only [Prod.mk.injEq] at hend
  obtain ⟨hbelow, hactive, hheld, hcatalog⟩ := hend
  obtain ⟨x, hx, hversion⟩ := Option.map_eq_some_iff.1 hheld
  obtain ⟨hrun, hrest⟩ := System.run_of_follow_where
    (M := system restingServers) (I := fun s => ∀ i, 3 ≤ i → s.Untouched i)
    (fun s a t hI hstep => by
      unfold System.guarded at hstep
      split at hstep
      · rename_i hfew
        exact ⟨hstep, untouched_of_below hI hfew hstep⟩
      · cases hstep)
    (fun _ _ => ⟨rfl, rfl⟩) hs
  have heq := hclaim restingServers s ⟨"a"⟩ x ⟨_, _, fresh_newService, hrun⟩
    (.of_below hbelow hrest) hactive hx
  rw [heq] at hcatalog
  have hone : x.version = 1 := hcatalog
  omega

end Sample

end Tempr.Services.CatalogLifecycle
