import Tempr.Ui.QueryRows

/-!
# The delivery of results

At most one run is in flight.  The grid shows what has been received of the
latest run, and nothing else; and when its outcome is reported, all of it has
been received.  What is documented of the executor and of the channels is all
that this rests on.
-/

namespace Tempr.Ui

open Tempr.DbPostgres Tempr.Support
open Tempr.Services (Batch QueryOutcome QueryRunId ServiceError)
open Tempr.Services.QueryService (ExecAction SinkCall execNext cancelNext)

variable {Row Cell Value : Type} {G : Runtime Value}

/-! ## Jobs -/

/-- The rows of a run are received before its outcome is reported. -/
def Ahead (run : QueryRunId) (jobs : List Job) : Prop :=
  ∃ front back, jobs = front ++ .rows run :: back ∧ .outcome run ∉ front

section Jobs

variable {run : QueryRunId} {job : Job} {jobs more : List Job}

theorem Ahead.append (h : Ahead run jobs) (more : List Job) :
    Ahead run (jobs ++ more) := by
  obtain ⟨front, back, rfl, hfront⟩ := h
  exact ⟨front, back ++ more, by simp, hfront⟩

theorem ahead_of_mem (hrows : .rows run ∈ jobs) (hnone : .outcome run ∉ jobs) :
    Ahead run jobs := by
  obtain ⟨front, back, rfl⟩ := List.append_of_mem hrows
  exact ⟨front, back, rfl, fun hmem => hnone (by simp [hmem])⟩

theorem Ahead.tail (h : Ahead run (job :: jobs)) (hjob : job ≠ .rows run) :
    Ahead run jobs := by
  obtain ⟨front, back, hjobs, hfront⟩ := h
  cases front with
  | nil => exact absurd (List.cons.inj hjobs).1 hjob
  | cons first front =>
      obtain ⟨rfl, rfl⟩ := List.cons.inj hjobs
      exact ⟨front, back, rfl, fun hmem => hfront (.tail _ hmem)⟩

theorem not_ahead_outcome : ¬Ahead run (.outcome run :: jobs) := by
  rintro ⟨front, back, hjobs, hfront⟩
  cases front with
  | nil => cases hjobs
  | cons first front =>
      obtain ⟨rfl, -⟩ := List.cons.inj hjobs
      exact hfront (.head _)

end Jobs

/-! ## What holds of a run -/

/-- Where the tasks of a run stand, given the jobs. -/
structure TaskSound (d : Decoder Row Cell Value) (jobs : List Job)
    (run : QueryRunId) (task : Task Row G) : Prop where
  runId_eq : task.execution.runId = run
  follows : Follows d task.execution task.service task.stream
  rows_mem : G.rows.waiting task.rows = false → .rows run ∈ jobs
  rows_woken : G.rows.held task.rows ≠ [] → G.rows.waiting task.rows = false
  waiting : G.outcome.waiting task.outcome = true → .outcome run ∉ jobs
  once : jobs.count (.outcome run) ≤ 1
  unsent : task.ended = none → G.outcome.held task.outcome = []
  returned : ∀ reply, task.ended = some (.ok reply) →
    task.service.phase = .finished reply
  sent : ∀ outcome, task.ended = some outcome → .outcome run ∈ jobs →
    G.outcome.held task.outcome = [outcome]
  ahead : task.ended.isSome = true → G.rows.held task.rows ≠ [] →
    Ahead run jobs

/-- The run is over: its outcome was reported, and nothing is left to
receive. -/
structure Settled (jobs : List Job) (run : QueryRunId) (task : Task Row G) :
    Prop where
  ended : task.ended.isSome = true
  reported : .outcome run ∉ jobs
  rows : G.rows.held task.rows = []

/-- The grid shows the messages, and no other. -/
def Displays (grid : ResultGrid Value) (messages : List (GridMsg Value)) :
    Prop :=
  grid.columns = (messages.foldl GridMsg.apply .reset).columns ∧
    grid.rows = (messages.foldl GridMsg.apply .reset).rows

theorem Displays.receive {grid : ResultGrid Value}
    {messages : List (GridMsg Value)} (h : Displays grid messages)
    (more : List (GridMsg Value)) :
    Displays (more.foldl GridMsg.apply grid) (messages ++ more) := by
  induction more generalizing grid messages with
  | nil => simpa using h
  | cons m more ih =>
      have hnext : Displays (m.apply grid) (messages ++ [m]) := by
        rw [Displays, List.foldl_append]
        cases m with
        | columns cs => exact ⟨rfl, rfl⟩
        | batch b => exact ⟨h.1, congrArg (· ++ b.rows) h.2⟩
      simpa using ih hnext

/-- Nothing was run, or the grid shows what has been received of the latest
run. -/
def ShowsLatest (w : MainWindow Value)
    (ts : QueryRunId → Option (Task Row G)) : Prop :=
  ((∀ run, ts run = none) ∧ w.grid = .new) ∨
    ∃ run task delivered, ts run = some task ∧
      (∀ r, w.currentRun = some r → r = run) ∧
      task.service.sink.map GridMsg.ofSink =
        delivered ++ G.rows.held task.rows ∧
      Displays w.grid delivered

/-- What holds of the window and its tasks, given the jobs. -/
structure Delivers (d : Decoder Row Cell Value) (w : MainWindow Value)
    (ts : QueryRunId → Option (Task Row G)) (jobs : List Job) : Prop where
  tasks : ∀ run task, ts run = some task → TaskSound d jobs run task
  unknown : ∀ run, ts run = none → .outcome run ∉ jobs
  settled : ∀ run task, ts run = some task → w.currentRun ≠ some run →
    Settled jobs run task
  shows : ShowsLatest w ts

def App.Sound (d : Decoder Row Cell Value) (app : App Row G) : Prop :=
  Delivers d app.window app.tasks (G.executor.woken app.jobs)

/-- The task that waits for the outcome of a run has run once before the
execution has ended. -/
def Prompt (app : App Row G) : Label Row Value → Prop
  | .complete run | .abort run _ =>
      ∀ task, app.tasks run = some task →
        G.outcome.waiting task.outcome = true
  | _ => True

section Tasks

variable {d : Decoder Row Cell Value} {jobs more : List Job} {job : Job}
  {run : QueryRunId} {task : Task Row G}

theorem TaskSound.append (h : TaskSound d jobs run task)
    (hmore : .outcome run ∉ more) : TaskSound d (jobs ++ more) run task where
  runId_eq := h.runId_eq
  follows := h.follows
  rows_mem hwaiting := List.mem_append_left _ (h.rows_mem hwaiting)
  rows_woken := h.rows_woken
  waiting hwaiting := by simp [h.waiting hwaiting, hmore]
  once := by
    rw [List.count_append, List.count_eq_zero_of_not_mem hmore]
    exact h.once
  unsent := h.unsent
  returned := h.returned
  sent outcome hended hmem :=
    h.sent outcome hended ((List.mem_append.mp hmem).resolve_right hmore)
  ahead hended hrows := (h.ahead hended hrows).append more

theorem Settled.append (h : Settled jobs run task)
    (hmore : .outcome run ∉ more) : Settled (jobs ++ more) run task :=
  ⟨h.ended, by simp [h.reported, hmore], h.rows⟩

/-- The next job is done, and was not to receive the rows. -/
theorem TaskSound.tail (h : TaskSound d (job :: jobs) run task)
    (hjob : job ≠ .rows run) : TaskSound d jobs run task where
  runId_eq := h.runId_eq
  follows := h.follows
  rows_mem hwaiting :=
    (List.mem_cons.mp (h.rows_mem hwaiting)).resolve_left hjob.symm
  rows_woken := h.rows_woken
  waiting hwaiting hmem := h.waiting hwaiting (.tail _ hmem)
  once := List.count_le_count_cons.trans h.once
  unsent := h.unsent
  returned := h.returned
  sent outcome hended hmem := h.sent outcome hended (.tail _ hmem)
  ahead hended hrows := (h.ahead hended hrows).tail hjob

theorem Settled.tail (h : Settled (job :: jobs) run task) :
    Settled jobs run task :=
  ⟨h.ended, fun hmem => h.reported (.tail _ hmem), h.rows⟩

/-- A step of the service on a run that has not ended. -/
theorem TaskSound.step (hG : G.Documented) (h : TaskSound d jobs run task)
    (hopen : task.ended = none) {service : Services.QueryService.State Value}
    {stream : Option (QueryStream Row)} (msgs : List (GridMsg Value))
    (hfollows : Follows d task.execution service stream) :
    TaskSound d
      (jobs ++ if (G.rows.sendAll task.rows msgs).2 then [.rows run] else [])
      run
      { task with
        service := service
        stream := stream
        rows := (G.rows.sendAll task.rows msgs).1 } := by
  have hheld := hG.rows.held_sendAll task.rows msgs
  have hwaiting := hG.rows.waiting_sendAll task.rows msgs
  have hwakes := hG.rows.wakes_sendAll task.rows msgs
  have hmore : .outcome run ∉
      if (G.rows.sendAll task.rows msgs).2 then [Job.rows run] else [] := by
    split <;> simp
  exact {
    runId_eq := h.runId_eq
    follows := hfollows
    rows_mem := by
      intro hw
      dsimp only at hw
      rw [hwaiting] at hw
      cases hbefore : G.rows.waiting task.rows with
      | false => exact List.mem_append_left _ (h.rows_mem hbefore)
      | true =>
          rw [hbefore, Bool.true_and] at hw
          rw [hwakes, hbefore, hw]
          simp
    rows_woken := by
      intro hrows
      dsimp only at hrows ⊢
      rw [hwaiting]
      cases msgs with
      | nil =>
          rw [hheld, List.append_nil] at hrows
          rw [h.rows_woken hrows, Bool.false_and]
      | cons m msgs => rw [List.isEmpty_cons, Bool.and_false]
    waiting := fun hw => by simp [h.waiting hw, hmore]
    once := by
      rw [List.count_append, List.count_eq_zero_of_not_mem hmore]
      exact h.once
    unsent := h.unsent
    returned := fun reply hended => by
      dsimp only at hended
      rw [hopen] at hended
      cases hended
    sent := fun outcome hended => by
      dsimp only at hended
      rw [hopen] at hended
      cases hended
    ahead := fun hended => by
      dsimp only at hended
      rw [hopen] at hended
      cases hended }

/-- The execution of a run ends while a task waits for it. -/
theorem TaskSound.conclude (hG : G.Documented) (h : TaskSound d jobs run task)
    (hopen : task.ended = none)
    (hwaiting : G.outcome.waiting task.outcome = true)
    {outcome : QueryTaskOutcome}
    (hreturned : ∀ reply, outcome = .ok reply →
      task.service.phase = .finished reply) :
    TaskSound d (jobs ++ [.outcome run]) run
      { task with
        ended := some outcome
        outcome := (G.outcome.send task.outcome outcome).1 } := by
  have hnone := h.waiting hwaiting
  exact {
    runId_eq := h.runId_eq
    follows := h.follows
    rows_mem := fun hw => List.mem_append_left _ (h.rows_mem hw)
    rows_woken := h.rows_woken
    waiting := fun hw => by
      dsimp only at hw
      rw [hG.outcome.waiting_send] at hw
      cases hw
    once := by
      rw [List.count_append, List.count_eq_zero_of_not_mem hnone]
      simp
    unsent := fun hended => by cases hended
    returned := fun reply hended =>
      hreturned reply (Option.some.inj hended)
    sent := fun o hended _ => by
      obtain rfl := Option.some.inj hended
      dsimp only
      rw [hG.outcome.held_send, h.unsent hopen, List.nil_append]
    ahead := fun _ hrows =>
      (ahead_of_mem (h.rows_mem (h.rows_woken hrows)) hnone).append _ }

end Tasks

/-! ## Steps -/

namespace MainWindow

/-- Reporting an outcome keeps the table that is shown. -/
theorem onQueryOutcome_grid (w : MainWindow Value) (run : QueryRunId)
    (outcome : QueryTaskOutcome)
    (completed : QueryRunId → Option QueryOutcome) :
    (w.onQueryOutcome run outcome completed).grid.columns = w.grid.columns ∧
      (w.onQueryOutcome run outcome completed).grid.rows = w.grid.rows := by
  rcases outcome with join | e | returned
  · rw [onQueryOutcome]
    split <;> exact ⟨rfl, rfl⟩
  · rw [onQueryOutcome]
    split <;> exact ⟨rfl, rfl⟩
  · rw [onQueryOutcome]
    split <;> split <;> split <;> exact ⟨rfl, rfl⟩

theorem onQueryOutcome_currentRun {w : MainWindow Value} {run : QueryRunId}
    (h : w.currentRun = some run) (outcome : QueryTaskOutcome)
    (completed : QueryRunId → Option QueryOutcome) :
    (w.onQueryOutcome run outcome completed).currentRun = none := by
  rcases outcome with join | e | returned
  · rw [onQueryOutcome, if_pos h]
    rfl
  · rw [onQueryOutcome, if_pos h]
    rfl
  · rw [onQueryOutcome, if_pos h]
    dsimp only
    split <;> split <;> rfl

/-- What running a text does to the grid and the run in flight: nothing, or a
new result begins when no run is in flight. -/
structure MayBegin (runId : QueryRunId) (w : MainWindow Value)
    (result : MainWindow Value × Option (String × Services.ConnectionId)) :
    Prop where
  kept : result.2 = none → result.1.grid = w.grid ∧
    result.1.currentRun = w.currentRun
  begun : ∀ sent, result.2 = some sent → w.currentRun = none ∧
    result.1.grid = .reset ∧ result.1.currentRun = some runId

theorem MayBegin.of_kept {runId : QueryRunId} {w w' : MainWindow Value}
    (hgrid : w'.grid = w.grid) (hcurrent : w'.currentRun = w.currentRun) :
    MayBegin runId w (w', none) :=
  ⟨fun _ => ⟨hgrid, hcurrent⟩, fun sent hsent => by cases hsent⟩

theorem runSql_mayBegin (sql : String) (runId : QueryRunId)
    (w : MainWindow Value) : MayBegin runId w (w.runSql sql runId) := by
  rw [runSql]
  split
  · exact .of_kept rfl rfl
  · split
    · exact .of_kept rfl rfl
    · split
      · exact .of_kept rfl rfl
      · split
        · exact .of_kept rfl rfl
        · rename_i hfree
          have hnone : w.currentRun = none := by simpa using hfree
          exact {
            kept := fun hsent => by cases hsent
            begun := fun _ _ => ⟨hnone, rfl, rfl⟩ }

theorem onUiEvent_mayBegin (event : UiEvent) (runId : QueryRunId)
    (w : MainWindow Value) : MayBegin runId w (w.onUiEvent event runId) := by
  cases event with
  | connectionStateChanged id state =>
      rw [onUiEvent]
      dsimp only
      split
      · split
        · split
          · rename_i sql _
            exact ⟨(runSql_mayBegin sql runId _).kept,
              (runSql_mayBegin sql runId _).begun⟩
          · exact .of_kept rfl rfl
        · exact .of_kept rfl rfl
      · exact .of_kept rfl rfl
  | rowsReceived run count =>
      rw [onUiEvent]
      split <;> exact .of_kept rfl rfl
  | schemaRefreshFailed connection message =>
      rw [onUiEvent]
      split <;> exact .of_kept rfl rfl

end MainWindow

theorem update_eq_some {α : Type} {f : QueryRunId → Option α}
    {run r : QueryRunId} {x t : α}
    (h : Function.update f run (some x) r = some t) :
    r = run ∧ x = t ∨ r ≠ run ∧ f r = some t := by
  by_cases hr : r = run
  · subst hr
    rw [Function.update_self, Option.some.injEq] at h
    exact .inl ⟨rfl, h⟩
  · rw [Function.update_of_ne hr] at h
    exact .inr ⟨hr, h⟩

theorem update_eq_none {α : Type} {f : QueryRunId → Option α}
    {run r : QueryRunId} {x : α}
    (h : Function.update f run (some x) r = none) : r ≠ run ∧ f r = none := by
  by_cases hr : r = run
  · subst hr
    rw [Function.update_self] at h
    cases h
  · rw [Function.update_of_ne hr] at h
    exact ⟨hr, h⟩

section Delivery

variable {d : Decoder Row Cell Value} {w w' : MainWindow Value}
  {ts : QueryRunId → Option (Task Row G)} {run : QueryRunId}
  {task : Task Row G} {jobs : List Job}

namespace Delivers

/-- Steps that leave the grid and the run in flight alone. -/
theorem window (h : Delivers d w ts jobs) (hgrid : w'.grid = w.grid)
    (hcurrent : w'.currentRun = w.currentRun) : Delivers d w' ts jobs where
  tasks := h.tasks
  unknown := h.unknown
  settled run task htask hother :=
    h.settled run task htask (hcurrent ▸ hother)
  shows := by
    rcases h.shows with ⟨hnone, hnew⟩ | ⟨run, task, delivered, htask,
      hlatest, hsink, hdisplays⟩
    · exact .inl ⟨hnone, hgrid.trans hnew⟩
    · refine .inr ⟨run, task, delivered, htask, ?_, hsink, ?_⟩
      · rw [hcurrent]
        exact hlatest
      · rw [hgrid]
        exact hdisplays

theorem wake (h : Delivers d w ts jobs) (run : QueryRunId) :
    Delivers d w ts (jobs ++ [.rows run]) where
  tasks r task htask := (h.tasks r task htask).append (by simp)
  unknown r hnone := by simpa using h.unknown r hnone
  settled r task htask hother :=
    (h.settled r task htask hother).append (by simp)
  shows := h.shows

/-- A step of a run sends messages, and may wake the tasks of that run. -/
theorem update (h : Delivers d w ts jobs) {task' : Task Row G}
    (htask : ts run = some task) (more : List Job)
    (hmore : ∀ r, r ≠ run → .outcome r ∉ more)
    (hsound : TaskSound d (jobs ++ more) run task')
    (sent : List (GridMsg Value))
    (hsink : task'.service.sink.map GridMsg.ofSink =
      task.service.sink.map GridMsg.ofSink ++ sent)
    (hrows : G.rows.held task'.rows = G.rows.held task.rows ++ sent)
    (hsettled : w.currentRun ≠ some run → Settled (jobs ++ more) run task') :
    Delivers d w (Function.update ts run (some task')) (jobs ++ more) where
  tasks r t ht := by
    rcases update_eq_some ht with ⟨rfl, rfl⟩ | ⟨hr, ht⟩
    · exact hsound
    · exact (h.tasks r t ht).append (hmore r hr)
  unknown r hnone := by
    obtain ⟨hr, hnone⟩ := update_eq_none hnone
    simp [h.unknown r hnone, hmore r hr]
  settled r t ht hother := by
    rcases update_eq_some ht with ⟨rfl, rfl⟩ | ⟨hr, ht⟩
    · exact hsettled hother
    · exact (h.settled r t ht hother).append (hmore r hr)
  shows := by
    refine .inr ?_
    rcases h.shows with ⟨hnone, -⟩ | ⟨r, t, delivered, ht, hlatest, hr,
      hdisplays⟩
    · rw [hnone] at htask
      cases htask
    · by_cases hsame : r = run
      · subst hsame
        obtain rfl : t = task := Option.some.inj (ht.symm.trans htask)
        refine ⟨r, task', delivered, Function.update_self .., hlatest, ?_,
          hdisplays⟩
        rw [hsink, hr, hrows, List.append_assoc]
      · exact ⟨r, t, delivered, (Function.update_of_ne hsame ..).trans ht,
          hlatest, hr, hdisplays⟩

/-- A run that has not ended is the one in flight. -/
theorem current (h : Delivers d w ts jobs) (htask : ts run = some task)
    (hopen : task.ended = none) : w.currentRun = some run := by
  by_contra hother
  have hended := (h.settled run task htask hother).ended
  rw [hopen] at hended
  cases hended

/-- A step of the service on a run. -/
theorem step (hG : G.Documented) (h : Delivers d w ts jobs)
    (htask : ts run = some task) (hopen : task.ended = none)
    {stream : Option (QueryStream Row)} {action : ExecAction Value}
    {service : Services.QueryService.State Value}
    (hexec : execNext task.execution task.service action = some service)
    (hfollows : Follows d task.execution service stream) :
    let sent := G.rows.sendAll task.rows
      ((service.sink.drop task.service.sink.length).map GridMsg.ofSink)
    Delivers d w
      (Function.update ts run (some
        { task with service := service, stream := stream, rows := sent.1 }))
      (jobs ++ if sent.2 then [.rows run] else []) := by
  intro sent
  have hcurrent := h.current htask hopen
  obtain ⟨more, hmore⟩ := execNext_sink hexec
  refine h.update htask _ ?_ ((h.tasks run task htask).step hG hopen _ hfollows)
    ((service.sink.drop task.service.sink.length).map GridMsg.ofSink) ?_ ?_
    fun hother => absurd hcurrent hother
  · intro r _
    split <;> simp
  · simp [hmore]
  · exact hG.rows.held_sendAll task.rows _

/-- A run begins when none is in flight. -/
theorem begins (hG : G.Documented) (h : Delivers d w ts jobs)
    {new : NewRun Value} {sent : String × Services.ConnectionId}
    (hnew : ts new.runId = none)
    (hfresh : Services.QueryService.Fresh (new.execution sent) new.service)
    (hnone : w.currentRun = none) (hgrid : w'.grid = .reset)
    (hcurrent : w'.currentRun = some new.runId) :
    Delivers d w'
      (Function.update ts new.runId (some
        { execution := new.execution sent
          service := new.service
          stream := none
          ended := none
          rows := G.rows.new
          outcome := G.outcome.new }))
      (jobs ++ [.rows new.runId, .outcome new.runId]) := by
  have hunknown := h.unknown new.runId hnew
  have hother : ∀ r, r ≠ new.runId →
      .outcome r ∉ [Job.rows new.runId, .outcome new.runId] := by
    intro r hr
    simp [hr]
  exact {
    tasks := by
      intro r t ht
      rcases update_eq_some ht with ⟨rfl, rfl⟩ | ⟨hr, ht⟩
      · exact {
          runId_eq := rfl
          follows := follows_fresh hfresh
          rows_mem := fun _ => by simp
          rows_woken := fun _ => hG.rows.waiting_new
          waiting := fun hwaiting => by
            rw [hG.outcome.waiting_new] at hwaiting
            cases hwaiting
          once := by
            rw [List.count_append, List.count_eq_zero_of_not_mem hunknown]
            simp
          unsent := fun _ => hG.outcome.held_new
          returned := fun reply hended => by cases hended
          sent := fun outcome hended => by cases hended
          ahead := fun hended => by cases hended }
      · exact (h.tasks r t ht).append (hother r hr)
    unknown := by
      intro r hr
      obtain ⟨hr, hnone⟩ := update_eq_none hr
      simp [h.unknown r hnone, hr]
    settled := by
      intro r t ht hnot
      rcases update_eq_some ht with ⟨rfl, rfl⟩ | ⟨hr, ht⟩
      · exact absurd hcurrent hnot
      · have hsettled := h.settled r t ht (by simp [hnone])
        exact hsettled.append (hother r hr)
    shows := by
      refine .inr ⟨new.runId, _, [], Function.update_self .., ?_, ?_, ?_⟩
      · intro r hr
        exact (Option.some.inj (hcurrent.symm.trans hr)).symm
      · simp [hfresh.sink, hG.rows.held_new]
      · exact ⟨congrArg ResultGrid.columns hgrid,
          congrArg ResultGrid.rows hgrid⟩ }

/-- A call of `cancel` does not touch what the run has sent. -/
theorem cancel (h : Delivers d w ts jobs) (htask : ts run = some task) {i : ℕ}
    {action : Services.QueryService.CancelAction}
    {service : Services.QueryService.State Value}
    (hstep : cancelNext run task.service i action = some service) :
    Delivers d w
      (Function.update ts run (some { task with service := service })) jobs := by
  have htaskSound := h.tasks run task htask
  obtain ⟨hphase, hsink, -⟩ := cancelNext_sink hstep
  have hsound : TaskSound d (jobs ++ []) run
      { task with service := service } := by
    rw [List.append_nil]
    exact { htaskSound with
      follows := htaskSound.follows.cancel hstep
      returned := fun reply hended => by
        rw [hphase]
        exact htaskSound.returned reply hended }
  have hupdate := h.update htask [] (by simp) hsound [] (by simp [hsink])
    (by simp) (by
      intro hother
      obtain ⟨hended, hreported, hrows⟩ := h.settled run task htask hother
      rw [List.append_nil]
      exact ⟨hended, hreported, hrows⟩)
  rwa [List.append_nil] at hupdate

/-- The execution of a run ends once its task waits for it. -/
theorem conclude (hG : G.Documented) (h : Delivers d w ts jobs)
    (htask : ts run = some task) (hopen : task.ended = none)
    (hwaiting : G.outcome.waiting task.outcome = true)
    {outcome : QueryTaskOutcome}
    (hreturned : ∀ reply, outcome = .ok reply →
      task.service.phase = .finished reply) :
    Delivers d w
      (Function.update ts run (some
        { task with
          ended := some outcome
          outcome := (G.outcome.send task.outcome outcome).1 }))
      (jobs ++ [.outcome run]) := by
  have hcurrent := h.current htask hopen
  exact h.update htask [.outcome run] (by simp)
    ((h.tasks run task htask).conclude hG hopen hwaiting hreturned) []
    (List.append_nil _).symm (List.append_nil _).symm
    fun hother => absurd hcurrent hother

/-! ### The main thread -/

/-- The messages are received. -/
theorem receive (hG : G.Documented) (h : Delivers d w ts (.rows run :: jobs))
    (htask : ts run = some task) :
    Delivers d
      { w with
        grid := (G.rows.receive task.rows).1.foldl GridMsg.apply w.grid }
      (Function.update ts run
        (some { task with rows := (G.rows.receive task.rows).2 })) jobs := by
  have htaskSound := h.tasks run task htask
  have hnone := hG.rows.held_receive task.rows
  have hother : ∀ r, r ≠ run → Job.rows run ≠ .rows r := by
    intro r hr hsame
    exact hr (Job.rows.inj hsame).symm
  exact {
    tasks := by
      intro r t ht
      rcases update_eq_some ht with ⟨rfl, rfl⟩ | ⟨hr, ht⟩
      · exact {
          runId_eq := htaskSound.runId_eq
          follows := htaskSound.follows
          rows_mem := fun hw => by
            dsimp only at hw
            rw [hG.rows.waiting_receive] at hw
            cases hw
          rows_woken := fun hrows => absurd hnone hrows
          waiting := fun hw hmem => htaskSound.waiting hw (.tail _ hmem)
          once := List.count_le_count_cons.trans htaskSound.once
          unsent := htaskSound.unsent
          returned := htaskSound.returned
          sent := fun outcome hended hmem =>
            htaskSound.sent outcome hended (.tail _ hmem)
          ahead := fun _ hrows => absurd hnone hrows }
      · exact (h.tasks r t ht).tail (hother r hr)
    unknown := by
      intro r hr hmem
      exact h.unknown r (update_eq_none hr).2 (.tail _ hmem)
    settled := by
      intro r t ht hnot
      rcases update_eq_some ht with ⟨rfl, rfl⟩ | ⟨hr, ht⟩
      · have hsettled := (h.settled r task htask hnot).tail
        exact ⟨hsettled.ended, hsettled.reported, hnone⟩
      · exact (h.settled r t ht hnot).tail
    shows := by
      rcases h.shows with ⟨hnone, -⟩ | ⟨r, t, delivered, ht, hlatest, hsink,
        hdisplays⟩
      · rw [hnone run] at htask
        cases htask
      · refine .inr ?_
        by_cases hr : r = run
        · subst hr
          obtain rfl : t = task := Option.some.inj (ht.symm.trans htask)
          refine ⟨r, _, delivered ++ G.rows.held t.rows,
            Function.update_self .., hlatest, ?_, ?_⟩
          · dsimp only
            rw [hnone, List.append_nil]
            exact hsink
          · dsimp only
            rw [hG.rows.receives]
            exact hdisplays.receive _
        · have hnot : w.currentRun ≠ some run := by
            intro hcurrent
            exact hr (hlatest run hcurrent).symm
          have hempty := (h.settled run task htask hnot).rows
          refine ⟨r, t, delivered, (Function.update_of_ne hr ..).trans ht,
            hlatest, hsink, ?_⟩
          dsimp only
          rw [hG.rows.receives, hempty]
          exact hdisplays }

/-- The task that waits for the outcome of a run is only woken for the run in
flight, and once. -/
theorem reports (h : Delivers d w ts (.outcome run :: jobs))
    (htask : ts run = some task) :
    w.currentRun = some run ∧ .outcome run ∉ jobs := by
  refine ⟨?_, ?_⟩
  · by_contra hnot
    exact (h.settled run task htask hnot).reported (.head _)
  · have honce := (h.tasks run task htask).once
    rw [List.count_cons_self] at honce
    exact List.count_eq_zero.mp (by omega)

/-- It receives the outcome, or waits for it. -/
theorem take (hG : G.Documented) (h : Delivers d w ts (.outcome run :: jobs))
    (htask : ts run = some task) :
    Delivers d w
      (Function.update ts run (some
        { task with outcome := (G.outcome.receive task.outcome).2 })) jobs := by
  have htaskSound := h.tasks run task htask
  obtain ⟨hcurrent, hnone⟩ := h.reports htask
  exact {
    tasks := by
      intro r t ht
      rcases update_eq_some ht with ⟨rfl, rfl⟩ | ⟨hr, ht⟩
      · have htail := htaskSound.tail (by simp)
        exact { htail with
          waiting := fun _ => hnone
          unsent := fun _ => hG.outcome.held_receive _
          sent := fun outcome _ hmem => absurd hmem hnone }
      · exact (h.tasks r t ht).tail (by simp)
    unknown := by
      intro r hr hmem
      exact h.unknown r (update_eq_none hr).2 (.tail _ hmem)
    settled := by
      intro r t ht hnot
      rcases update_eq_some ht with ⟨rfl, rfl⟩ | ⟨hr, ht⟩
      · exact absurd hcurrent hnot
      · exact (h.settled r t ht hnot).tail
    shows := by
      rcases h.shows with ⟨hnone, -⟩ | ⟨r, t, delivered, ht, hlatest, hsink,
        hdisplays⟩
      · rw [hnone run] at htask
        cases htask
      · refine .inr ?_
        by_cases hr : r = run
        · subst hr
          obtain rfl : t = task := Option.some.inj (ht.symm.trans htask)
          exact ⟨r, _, delivered, Function.update_self .., hlatest, hsink,
            hdisplays⟩
        · exact ⟨r, t, delivered, (Function.update_of_ne hr ..).trans ht,
            hlatest, hsink, hdisplays⟩ }

/-- When an outcome is received, all that its run sent has been. -/
theorem rows_eq_nil (h : Delivers d w ts (.outcome run :: jobs))
    (htask : ts run = some task) (hended : task.ended.isSome = true) :
    G.rows.held task.rows = [] := by
  by_contra hrows
  exact not_ahead_outcome ((h.tasks run task htask).ahead hended hrows)

/-- The outcome is reported. -/
theorem report (h : Delivers d w ts jobs) (htask : ts run = some task)
    (hcurrent : w.currentRun = some run) (hsettled : Settled jobs run task)
    (outcome : QueryTaskOutcome)
    (completed : QueryRunId → Option QueryOutcome) :
    Delivers d (w.onQueryOutcome run outcome completed) ts jobs := by
  obtain ⟨hcolumns, hrows⟩ := w.onQueryOutcome_grid run outcome completed
  exact {
    tasks := h.tasks
    unknown := h.unknown
    settled := by
      intro r t ht hnot
      by_cases hr : r = run
      · subst hr
        obtain rfl : t = task := Option.some.inj (ht.symm.trans htask)
        exact hsettled
      · have hother : w.currentRun ≠ some r := by
          rw [hcurrent]
          exact fun hsame => hr (Option.some.inj hsame).symm
        exact h.settled r t ht hother
    shows := by
      rcases h.shows with ⟨hnone, -⟩ | ⟨r, t, delivered, ht, hlatest, hsink,
        hdisplays⟩
      · rw [hnone run] at htask
        cases htask
      · refine .inr ⟨r, t, delivered, ht, ?_, hsink, ?_⟩
        · intro r' hr'
          rw [MainWindow.onQueryOutcome_currentRun hcurrent] at hr'
          cases hr'
        · exact ⟨hcolumns.trans hdisplays.1, hrows.trans hdisplays.2⟩ }

end Delivers

end Delivery

namespace App

variable {d : Decoder Row Cell Value} {app app' : App Row G}

/-! ## Runs -/

/-- A step of the service on a run, which may have another stream. -/
theorem Sound.advance (hG : G.Documented) (h : app.Sound d) {run : QueryRunId}
    {task : Task Row G} (htask : app.tasks run = some task)
    (stream : Option (QueryStream Row)) {action : ExecAction Value}
    (hfollows : ∀ service,
      execNext task.execution task.service action = some service →
        Follows d task.execution service stream)
    (hstep : app.advance run { task with stream := stream } action
      = some app') : app'.Sound d := by
  rw [App.advance] at hstep
  split at hstep
  · cases hstep
  · rename_i hopen
    obtain ⟨service, hexec, rfl⟩ := Option.map_eq_some_iff.mp hstep
    have hnone : task.ended = none := by simpa using hopen
    rw [App.Sound]
    dsimp only
    rw [hG.executor.woken_wakeAll]
    exact Delivers.step hG h htask hnone hexec (hfollows service hexec)

/-- A call that may begin a run. -/
theorem Sound.begin (hG : G.Documented) (h : app.Sound d) {new : NewRun Value}
    {result : MainWindow Value × Option (String × Services.ConnectionId)}
    (hnew : app.tasks new.runId = none)
    (hfresh : ∀ sent, Services.QueryService.Fresh (new.execution sent)
      new.service)
    (hresult : MainWindow.MayBegin new.runId app.window result) :
    (app.begin new result).Sound d := by
  rw [App.begin]
  cases hsent : result.2 with
  | none =>
      obtain ⟨hgrid, hcurrent⟩ := hresult.kept hsent
      exact Delivers.window h hgrid hcurrent
  | some sent =>
      obtain ⟨hnone, hgrid, hcurrent⟩ := hresult.begun sent hsent
      rw [App.Sound]
      dsimp only
      rw [hG.executor.woken_wakeAll]
      exact Delivers.begins hG h hnew (hfresh sent) hnone hgrid hcurrent

/-- The execution of a run ends once its task waits for it. -/
theorem Sound.conclude (hG : G.Documented) (h : app.Sound d) {run : QueryRunId}
    {task : Task Row G} (htask : app.tasks run = some task)
    (hopen : task.ended = none)
    (hwaiting : G.outcome.waiting task.outcome = true)
    {outcome : QueryTaskOutcome}
    (hreturned : ∀ reply, outcome = .ok reply →
      task.service.phase = .finished reply) :
    (app.conclude run task outcome).Sound d := by
  rw [App.Sound, App.conclude]
  dsimp only
  rw [hG.executor.woken_wakeAll, hG.outcome.wakes, hwaiting, if_pos rfl]
  exact Delivers.conclude hG h htask hopen hwaiting hreturned

/-- The main thread runs a task. -/
theorem Sound.runJob (hG : G.Documented) {job : Job}
    (h : Delivers d app.window app.tasks
      (job :: G.executor.woken app.jobs)) : (app.runJob job).Sound d := by
  cases job with
  | rows run =>
      rw [App.runJob]
      cases htask : app.tasks run with
      | none =>
          have hother : ∀ r t, app.tasks r = some t → Job.rows run ≠ .rows r := by
            rintro r t ht hsame
            rw [← Job.rows.inj hsame, htask] at ht
            cases ht
          exact {
            tasks := fun r t ht => (h.tasks r t ht).tail (hother r t ht)
            unknown := fun r hr hmem => h.unknown r hr (.tail _ hmem)
            settled := fun r t ht hnot => (h.settled r t ht hnot).tail
            shows := h.shows }
      | some task => exact h.receive hG htask
  | outcome run =>
      rw [App.runJob]
      cases htask : app.tasks run with
      | none => exact absurd (.head _) (h.unknown run htask)
      | some task =>
          obtain ⟨hcurrent, hnone⟩ := h.reports htask
          have htaken := h.take hG htask
          rw [App.Sound]
          dsimp only
          split
          · exact htaken
          · rename_i outcome rest hreceived
            rw [hG.outcome.receives] at hreceived
            -- an outcome that is received has been sent
            have hended : task.ended.isSome = true := by
              by_contra hopen
              have hunsent := (h.tasks run task htask).unsent (by simpa using hopen)
              rw [hunsent] at hreceived
              cases hreceived
            have hrows := h.rows_eq_nil htask hended
            exact htaken.report (Function.update_self ..) hcurrent
              ⟨hended, hnone, hrows⟩ outcome _

theorem Sound.next (hG : G.Documented) (h : app.Sound d)
    {label : Label Row Value} (hnew : app.IsNew label)
    (hprompt : Prompt app label) (hstep : app.next d label = some app') :
    app'.Sound d := by
  cases label with
  | run sql new =>
      obtain rfl := Option.some.inj hstep
      exact h.begin hG hnew.1 hnew.2 (app.window.runSql_mayBegin sql new.runId)
  | cancelQuery =>
      obtain rfl := Option.some.inj hstep
      refine Delivers.window h ?_ ?_
      · rw [MainWindow.cancelQuery]
        split <;> rfl
      · rw [MainWindow.cancelQuery]
        split <;> rfl
  | event event new =>
      obtain rfl := Option.some.inj hstep
      exact h.begin hG hnew.1 hnew.2
        (app.window.onUiEvent_mayBegin event new.runId)
  | report text isError =>
      obtain rfl := Option.some.inj hstep
      exact Delivers.window h rfl rfl
  | exec run action =>
      rw [App.next] at hstep
      split at hstep
      case isTrue => cases hstep
      case isFalse hquiet =>
        obtain ⟨task, htask, hadvance⟩ := Option.bind_eq_some_iff.mp hstep
        refine h.advance hG htask task.stream ?_ hadvance
        intro service hexec
        exact (h.tasks run task htask).follows.exec (by simpa using hquiet)
          hexec
  | cancel run call action =>
      obtain ⟨task, htask, hcancel⟩ := Option.bind_eq_some_iff.mp hstep
      obtain ⟨service, hservice, rfl⟩ := Option.map_eq_some_iff.mp hcancel
      exact Delivers.cancel h htask hservice
  | answer run answer =>
      obtain ⟨task, htask, hadvance⟩ := Option.bind_eq_some_iff.mp hstep
      refine h.advance hG htask (some answer.stream) ?_ hadvance
      intro service hexec
      exact (h.tasks run task htask).follows.answer hexec
  | fetch run =>
      obtain ⟨task, htask, hfetch⟩ := Option.bind_eq_some_iff.mp hstep
      obtain ⟨stream, hstream, hadvance⟩ := Option.bind_eq_some_iff.mp hfetch
      refine h.advance hG htask (some (stream.nextBatch d).1) ?_ hadvance
      intro service hexec
      have hfollows := (h.tasks run task htask).follows
      rw [hstream] at hfollows
      exact hfollows.fetch rfl hexec
  | complete run =>
      obtain ⟨task, htask, hcomplete⟩ := Option.bind_eq_some_iff.mp hstep
      have hwaiting := hprompt task htask
      split at hcomplete
      · rename_i returned hphase hopen
        obtain rfl := Option.some.inj hcomplete
        refine h.conclude hG htask hopen hwaiting ?_
        rintro reply ⟨⟩
        exact hphase
      · cases hcomplete
  | abort run join =>
      obtain ⟨task, htask, habort⟩ := Option.bind_eq_some_iff.mp hstep
      have hwaiting := hprompt task htask
      split at habort
      · cases habort
      · rename_i hopen _
        obtain rfl := Option.some.inj habort
        exact h.conclude hG htask hopen hwaiting (by rintro reply ⟨⟩)
      · cases habort
  | wake run =>
      obtain rfl := Option.some.inj hstep
      rw [App.Sound]
      dsimp only
      rw [hG.executor.woken_wake]
      exact Delivers.wake h run
  | poll =>
      obtain ⟨⟨job, jobs⟩, hnext, rfl⟩ := Option.map_eq_some_iff.mp hstep
      apply Sound.runJob hG
      dsimp only
      rw [← hG.executor.woken_of_next hnext]
      exact h

section Sample

/-- Lists for queues. -/
def listRuntime : Runtime ℕ where
  executor := .list Job
  rows := .list (GridMsg ℕ)
  outcome := .list QueryTaskOutcome

/-- Cells that are numbers. -/
def plainDecoder : Decoder (List ℕ) ℕ ℕ where
  cells row := row
  decodeValue _ _ cell := .ok cell
  custom _ := 0

/-- A connected window. -/
def connectedApp : App (List ℕ) listRuntime where
  window :=
    { connection := some ⟨⟨"c"⟩, "u", "h", 5432, "d"⟩
      connectionState := .connected
      grid := .new
      status := ""
      statusIsError := false
      currentRun := none
      startupSql := none }
  tasks _ := none
  jobs := listRuntime.executor.idle

def firstRun : NewRun ℕ := ⟨⟨"r"⟩, ⟨"q"⟩, 0, Services.QueryService.State.new⟩

/-- "SELECT 1" is run. -/
def startedApp : App (List ℕ) listRuntime :=
  connectedApp.begin firstRun (connectedApp.window.runSql "SELECT 1" ⟨"r"⟩)

def startsRun : Label (List ℕ) ℕ → Bool
  | .run _ _ | .event _ _ => true
  | _ => false

theorem isNew_of_not_startsRun (app : App (List ℕ) listRuntime)
    {label : Label (List ℕ) ℕ} (h : startsRun label = false) :
    app.IsNew label := by
  cases label with
  | run sql new => cases h
  | event event new => cases h
  | _ => trivial

def selectOne : List (Label (List ℕ) ℕ) :=
  [.exec ⟨"r"⟩ .consume, .exec ⟨"r"⟩ .announce, .exec ⟨"r"⟩ .register,
    .exec ⟨"r"⟩ (.select (some ⟨.connected,
      some ⟨⟨0, .user, 8⟩, ⟨0, .metadata, 1⟩⟩⟩)),
    .exec ⟨"r"⟩ (.borrow (.ok ())), .exec ⟨"r"⟩ .capture,
    .answer ⟨"r"⟩ ⟨[⟨"?column?", 0, "int4", .int, true, none, none⟩],
      [[1]], 0⟩,
    .exec ⟨"r"⟩ .deliverColumns, .fetch ⟨"r"⟩, .exec ⟨"r"⟩ .announceRows,
    .fetch ⟨"r"⟩, .exec ⟨"r"⟩ .remove, .exec ⟨"r"⟩ (.record 0),
    .exec ⟨"r"⟩ .announceFinish]

theorem startedApp_reachable :
    ((system listRuntime plainDecoder).restrict Prompt).Reachable startedApp :=
  .step (l := .run "SELECT 1" firstRun)
    (.init ⟨rfl, rfl, fun _ => rfl, rfl⟩)
    ⟨⟨rfl, rfl, fun _ => Services.QueryService.fresh_new _⟩, trivial⟩

/-- The steps of a run that has begun. -/
def resume : App (List ℕ) listRuntime → Label (List ℕ) ℕ →
    Option (App (List ℕ) listRuntime) :=
  System.guarded (next plainDecoder) fun _ label => !startsRun label

theorem step_of_resume (s : App (List ℕ) listRuntime) (l : Label (List ℕ) ℕ)
    (t : App (List ℕ) listRuntime) (h : resume s l = some t) :
    (system listRuntime plainDecoder).step s l t := by
  have hguarded : ((System.ofNext Starts (next plainDecoder)).restrict
      fun _ label => (!startsRun label) = true).step s l t :=
    System.restrict_step_of_guarded s l t h
  obtain ⟨hstep, hstarts⟩ := hguarded
  exact ⟨hstep, isNew_of_not_startsRun s (by simpa using hstarts)⟩

/-- An outcome that arrives before its task has run once is reported before the
rows that the grid is still to receive. -/
theorem outcome_before_rows :
    ∃ app : App (List ℕ) listRuntime,
      (system listRuntime plainDecoder).Reachable app ∧
      app.window.status = "Done — 0 rows" ∧
      ∃ task, app.tasks ⟨"r"⟩ = some task ∧
        (listRuntime.rows.held task.rows).length = 2 := by
  let after := System.follow resume startedApp
    ([.poll] ++ selectOne ++ [.complete ⟨"r"⟩, .poll])
  have hsome : after.isSome = true := by decide +kernel
  have hseen : after.map (fun app => (app.window.status,
      (app.tasks ⟨"r"⟩).map fun task =>
        (listRuntime.rows.held task.rows).length)) =
      some ("Done — 0 rows", some 2) := by
    decide +kernel
  obtain ⟨app, happ⟩ := Option.isSome_iff_exists.mp hsome
  rw [happ] at hseen
  simp only [Option.map_some, Option.some.injEq, Prod.mk.injEq] at hseen
  obtain ⟨hstatus, htask⟩ := hseen
  exact ⟨app, startedApp_reachable.of_restrict.append
    (System.run_of_follow step_of_resume happ), hstatus, by simpa using htask⟩

end Sample

end App

end Tempr.Ui
