import Tempr.Services.Cancel
import Tempr.Ui.MainWindow

/-!
# Rows on the way to the window

What the service hands to the sink of a run is what its stream has read, and a
run that completes as a success has read all of it.
-/

namespace Tempr.Ui

open Tempr.DbPostgres Tempr.Support
open Tempr.Services (Batch ColumnSpec QueryOutcome QueryRunId ServiceError)
open Tempr.Services.QueryService (ExecAction ExecStep Execution Phase SinkCall
  State RunResult execNext execStep_of_next cancelNext outcomeOf)

variable {Row Cell Value : Type}

/-! ## What a step does to the sink -/

section Sink

variable {e : Execution} {s t : State Value}

theorem execNext_sink {a : ExecAction Value} (h : execNext e s a = some t) :
    ∃ more, t.sink = s.sink ++ more := by
  cases execStep_of_next h with
  | deliverColumns columns hphase ht => exact ⟨[.columns columns], by rw [ht]⟩
  | nextBatch columns totalRows hphase ht => exact ⟨[.batch _], by rw [ht]⟩
  | _ => exact ⟨[], by subst_vars; exact (List.append_nil _).symm⟩

theorem cancelNext_sink {i : ℕ} {a : Services.QueryService.CancelAction}
    {run : QueryRunId} (h : cancelNext run s i a = some t) :
    t.phase = s.phase ∧ t.sink = s.sink ∧
      t.completedRuns = s.completedRuns := by
  unfold cancelNext at h
  split at h
  · split at h
    · obtain rfl := Option.some.inj h
      exact ⟨rfl, rfl, rfl⟩
    · obtain rfl := Option.some.inj h
      exact ⟨rfl, rfl, rfl⟩
  · obtain rfl := Option.some.inj h
    exact ⟨rfl, rfl, rfl⟩
  · obtain rfl := Option.some.inj h
    exact ⟨rfl, rfl, rfl⟩
  · obtain rfl := Option.some.inj h
    exact ⟨rfl, rfl, rfl⟩
  · cases h

end Sink

/-! ## The sink follows the stream -/

/-- The sink holds the columns of the stream and then batches. -/
def Holds (sink : List (SinkCall Value)) (stream : QueryStream Row)
    (batches : List (Batch Value)) : Prop :=
  sink = .columns stream.inner.columns :: batches.map .batch

/-- The sink holds all rows of the stream. -/
def HoldsAll (d : Decoder Row Cell Value) (sink : List (SinkCall Value))
    (stream : Option (QueryStream Row)) : Prop :=
  ∃ s batches, stream = some s ∧ Holds sink s batches ∧
    batches.flatMap Batch.rows = s.inner.rows.map (decodeRow d)

/-- A run that has completed as a success holds all rows and returns its id. -/
def Succeeded (d : Decoder Row Cell Value) (e : Execution) (s : State Value)
    (stream : Option (QueryStream Row))
    (returned : Except ServiceError QueryRunId) : Prop :=
  (s.completedRuns e.runId).map (·.outcome) = some .success →
    HoldsAll d s.sink stream ∧ returned = .ok e.runId

/-- What the sink of a run has been handed, by where the run stands. -/
def Follows (d : Decoder Row Cell Value) (e : Execution) (s : State Value)
    (stream : Option (QueryStream Row)) : Prop :=
  match s.phase with
  | .opened columns =>
      s.completedRuns e.runId = none ∧ s.sink = [] ∧
        ∃ st, stream = some st ∧ st.inner.columns = columns ∧
          st.finished = false ∧ st.inner.HasRead d []
  | .streaming _ _ | .received _ _ _ =>
      s.completedRuns e.runId = none ∧
        ∃ st batches, stream = some st ∧ Holds s.sink st batches ∧
          st.finished = false ∧ st.inner.HasRead d batches
  | .finishing result _ | .recording _ result _ =>
      s.completedRuns e.runId = none ∧
        ∀ r, result = .ok r → HoldsAll d s.sink stream
  | .closing _ returned | .finished returned =>
      Succeeded d e s stream returned
  | _ => s.completedRuns e.runId = none ∧ s.sink = []

section Follows

variable {d : Decoder Row Cell Value} {e : Execution} {s t : State Value}
  {stream : Option (QueryStream Row)}

theorem follows_fresh (h : Services.QueryService.Fresh e s) :
    Follows d e s stream := by
  rw [Follows, h.phase]
  exact ⟨h.completedRuns, h.sink⟩

/-- A run that fails has nothing to hold. -/
theorem follows_failed {error : ServiceError} {s' : State Value}
    (hnone : s.completedRuns e.runId = none)
    (hs' : s'.completedRuns = s.completedRuns) :
    Follows d e (s'.finishRun e (.error error)) stream :=
  ⟨(congrFun hs' _).trans hnone, fun r hr => by cases hr⟩

theorem outcomeOf_eq_success {cancelled : Bool} {result : RunResult}
    (h : outcomeOf cancelled result = .success) :
    cancelled = false ∧ ∃ r, result = .ok r := by
  cases cancelled with
  | true => cases h
  | false =>
      cases result with
      | ok r => exact ⟨rfl, r, rfl⟩
      | error err => cases h

theorem Follows.exec (h : Follows d e s stream) {a : ExecAction Value}
    (ha : App.isStreamed a = false) (hstep : execNext e s a = some t) :
    Follows d e t stream := by
  cases execStep_of_next hstep with
  | consume hphase ht | announce preCancelled hphase ht | select hphase _ ht
  | borrow hphase ht | register hphase ht =>
      rw [Follows, hphase] at h
      rw [ht]
      exact h
  | registerCancelled hphase ht | selectFailed hphase _ ht
  | borrowFailed hphase ht | captureCancelled hphase _ _ ht
  | executeFailed hphase ht =>
      rw [Follows, hphase] at h
      rw [ht]
      exact follows_failed h.1 rfl
  | capture hphase hactive hflag ht | captureMissing hphase hactive ht =>
      rw [Follows, hphase] at h
      rw [ht]
      exact h
  | execute hphase ht | nextBatch columns totalRows hphase ht
  | streamEnd columns totalRows hphase ht
  | streamFailed columns totalRows hphase ht => cases ha
  | deliverColumns columns hphase ht =>
      rw [Follows, hphase] at h
      obtain ⟨hnone, hsink, st, hst, rfl, hfinished, hread⟩ := h
      rw [ht]
      refine ⟨hnone, st, [], hst, ?_, hfinished, hread⟩
      rw [Holds, hsink]
      rfl
  | announceRows columns totalRows count hphase ht =>
      rw [Follows, hphase] at h
      rw [ht]
      exact h
  | remove result resultSet hphase hactive ht =>
      rw [Follows, hphase] at h
      rw [ht]
      exact h
  | removeMissing result resultSet hphase hactive ht =>
      rw [Follows, hphase] at h
      rw [ht]
      intro hcompleted
      rw [h.1] at hcompleted
      cases hcompleted
  | record active result resultSet hphase ht =>
      rw [Follows, hphase] at h
      rw [ht]
      intro hcompleted
      have houtcome : outcomeOf active.cancelled result = .success := by
        simpa using hcompleted
      obtain ⟨hflag, r, rfl⟩ := outcomeOf_eq_success houtcome
      refine ⟨h.2 r rfl, ?_⟩
      rw [hflag]
      rfl
  | announceFinish outcome returned hphase ht =>
      rw [Follows, hphase] at h
      rw [ht]
      exact h

/-- The answer opens the stream that the run reads. -/
theorem Follows.answer (h : Follows d e s stream) {answer : Answer Row}
    (hstep : execNext e s (.execute (.ok answer.columns)) = some t) :
    Follows d e t (some answer.stream) := by
  cases execStep_of_next hstep with
  | execute hphase ht =>
      rw [Follows, hphase] at h
      rw [ht]
      exact ⟨h.1, h.2, answer.stream, rfl, answer.stream_columns,
        answer.stream_finished, answer.stream_hasRead⟩

/-- The batch that is read goes to the sink. -/
theorem Follows.fetch {st st' : QueryStream Row}
    (h : Follows d e s (some st)) {reply : Option (Batch Value)}
    (hnext : st.nextBatch d = (st', reply))
    (hstep : execNext e s (.nextBatch (.ok reply)) = some t) :
    Follows d e t (some st') := by
  cases execStep_of_next hstep with
  | nextBatch columns totalRows hphase ht =>
      rw [Follows, hphase] at h
      obtain ⟨hnone, _, batches, hst, hholds, hfinished, hread⟩ := h
      obtain rfl := Option.some.inj hst
      obtain ⟨hcolumns, hrows, hread', -, hgoes⟩ :=
        QueryStream.nextBatch_hasRead hread hfinished hnext
      rw [ht]
      refine ⟨hnone, st', _, rfl, ?_, hgoes (by simp), hread'⟩
      rw [Holds, hcolumns]
      rw [Holds] at hholds
      simp [hholds]
  | streamEnd columns totalRows hphase ht =>
      rw [Follows, hphase] at h
      obtain ⟨hnone, _, batches, hst, hholds, hfinished, hread⟩ := h
      obtain rfl := Option.some.inj hst
      obtain ⟨hcolumns, hrows, -, hall, -⟩ :=
        QueryStream.nextBatch_hasRead hread hfinished hnext
      rw [ht]
      refine ⟨hnone, fun r _ => ⟨st', batches, rfl, ?_, ?_⟩⟩
      · rw [Holds, hcolumns]
        exact hholds
      · rw [hrows]
        exact hall rfl

theorem Follows.cancel (h : Follows d e s stream) {run : QueryRunId} {i : ℕ}
    {a : Services.QueryService.CancelAction}
    (hstep : cancelNext run s i a = some t) : Follows d e t stream := by
  obtain ⟨hphase, hsink, hcompleted⟩ := cancelNext_sink hstep
  simpa only [Follows, Succeeded, hphase, hsink, hcompleted] using h

end Follows

end Tempr.Ui
