import Tempr.Services.Query

/-!
# Cancels against the execution they cancel

The maps of the service are abstracted to a ledger of the one run: how far the
execution is, whether a cancel waits in `pending_cancels`, the cancelled flag in
`active_runs`, the recorded outcome and the published ones. A cancel is noted in
the ledger before it returns unless it arms `pending_cancels` when the execution
has already taken what was there.
-/

namespace Tempr.Services.QueryService

open Tempr.Support

/-! ## The ledger of a run -/

/-- How far the execution is, and what it carries between its lock sections. -/
inductive Stage
  | waiting
  | consumed (preCancelled : Bool)
  | registered
  | removed (cancelled : Bool)
  | recorded (outcome : QueryOutcome)
  | finished
  deriving DecidableEq, Repr

/-- What the service knows about the run. -/
structure Ledger where
  stage : Stage
  pending : Bool
  active : Option Bool
  completed : Option QueryOutcome
  finishes : List QueryOutcome
  deriving DecidableEq, Repr

/-- The steps of the ledger; the index tells whether a cancel is armed. -/
inductive LedgerStep : Bool → Ledger → Ledger → Prop
  | stutter (l : Ledger) : LedgerStep false l l
  | consume {l : Ledger} : l.stage = .waiting →
      LedgerStep false l { l with stage := .consumed l.pending, pending := false }
  | register {l : Ledger} {preCancelled : Bool} :
      l.stage = .consumed preCancelled →
      LedgerStep false l
        { l with stage := .registered, active := some preCancelled }
  | flag {l : Ledger} {cancelled : Bool} : l.active = some cancelled →
      LedgerStep false l { l with active := some true }
  | remove {l : Ledger} {cancelled : Bool} : l.stage = .registered →
      l.active = some cancelled →
      LedgerStep false l { l with stage := .removed cancelled, active := none }
  | vanish {l : Ledger} : l.stage = .registered → l.active = none →
      LedgerStep false l { l with stage := .finished }
  | record {l : Ledger} {cancelled : Bool} {outcome : QueryOutcome} :
      l.stage = .removed cancelled →
      (cancelled = true → outcome = .cancelled) →
      LedgerStep false l
        { l with stage := .recorded outcome, completed := some outcome }
  | announce {l : Ledger} {outcome : QueryOutcome} :
      l.stage = .recorded outcome →
      LedgerStep false l
        { l with stage := .finished, finishes := l.finishes ++ [outcome] }
  | arm (l : Ledger) : LedgerStep true l { l with pending := true }

namespace Ledger

/-- What the ledger shows at each stage. -/
def Consistent (l : Ledger) : Prop :=
  match l.stage with
  | .waiting => l.active = none ∧ l.completed = none ∧ l.finishes = []
  | .consumed _ => l.active = none ∧ l.completed = none ∧ l.finishes = []
  | .registered =>
      (∃ cancelled, l.active = some cancelled) ∧ l.completed = none ∧
        l.finishes = []
  | .removed _ => l.active = none ∧ l.completed = none ∧ l.finishes = []
  | .recorded outcome =>
      l.active = none ∧ l.completed = some outcome ∧ l.finishes = []
  | .finished =>
      l.active = none ∧
        ∃ outcome, l.completed = some outcome ∧ l.finishes = [outcome]

/-- A cancel of the run is on record. -/
def Noted (l : Ledger) : Prop :=
  match l.stage with
  | .waiting => l.pending = true
  | .consumed preCancelled => preCancelled = true
  | .registered => l.active = some true
  | .removed cancelled => cancelled = true
  | .recorded outcome => outcome = .cancelled
  | .finished => l.completed = some .cancelled

end Ledger

/-- The run has not been removed from `active_runs`. -/
def Stage.beforeRemoval : Stage → Bool
  | waiting => true
  | consumed _ => true
  | registered => true
  | _ => false

section LedgerStep

variable {l l' : Ledger} {arms : Bool}

theorem LedgerStep.consistent (h : LedgerStep arms l l') (hl : l.Consistent) :
    l'.Consistent := by
  obtain ⟨stage, pending, active, completed, finishes⟩ := l
  cases h with
  | stutter => exact hl
  | consume hstage =>
      obtain rfl : stage = _ := hstage
      exact hl
  | register hstage =>
      obtain rfl : stage = _ := hstage
      exact ⟨⟨_, rfl⟩, hl.2⟩
  | flag hactive =>
      obtain rfl : active = _ := hactive
      cases stage <;> simp_all [Ledger.Consistent]
  | remove hstage hactive =>
      obtain rfl : stage = _ := hstage
      exact ⟨rfl, hl.2⟩
  | vanish hstage hactive =>
      obtain rfl : stage = _ := hstage
      obtain rfl : active = _ := hactive
      obtain ⟨⟨cancelled, hcancelled⟩, -⟩ := hl
      cases hcancelled
  | record hstage houtcome =>
      obtain rfl : stage = _ := hstage
      exact ⟨hl.1, rfl, hl.2.2⟩
  | announce hstage =>
      obtain rfl : stage = _ := hstage
      obtain ⟨hactive, hcompleted, hfinishes⟩ := hl
      exact ⟨hactive, _, hcompleted, by simp_all⟩
  | arm => exact hl

/-- A noted cancel stays noted. -/
theorem LedgerStep.noted (h : LedgerStep arms l l') (hl : l.Consistent)
    (hnoted : l.Noted) : l'.Noted := by
  obtain ⟨stage, pending, active, completed, finishes⟩ := l
  cases h with
  | stutter => exact hnoted
  | consume hstage =>
      obtain rfl : stage = _ := hstage
      exact hnoted
  | register hstage =>
      obtain rfl : stage = _ := hstage
      exact congrArg some hnoted
  | flag hactive =>
      obtain rfl : active = _ := hactive
      cases stage <;> simp_all [Ledger.Noted]
  | remove hstage hactive =>
      obtain rfl : stage = _ := hstage
      obtain rfl : active = _ := hactive
      simpa [Ledger.Noted] using hnoted
  | vanish hstage hactive =>
      obtain rfl : stage = _ := hstage
      obtain rfl : active = _ := hactive
      cases hnoted
  | record hstage houtcome =>
      obtain rfl : stage = _ := hstage
      exact houtcome hnoted
  | announce hstage =>
      obtain rfl : stage = _ := hstage
      obtain rfl : _ = QueryOutcome.cancelled := hnoted
      exact hl.2.1
  | arm => cases stage <;> first | exact hnoted | rfl

/-- The execution does not go back behind its removal of the run. -/
theorem LedgerStep.beforeRemoval (h : LedgerStep arms l l')
    (hl' : l'.stage.beforeRemoval = true) : l.stage.beforeRemoval = true := by
  cases h <;> simp_all [Stage.beforeRemoval]

/-- Nor behind its consumption of the armed cancels. -/
theorem LedgerStep.waiting (h : LedgerStep arms l l')
    (hl' : l'.stage = .waiting) : l.stage = .waiting := by
  cases h <;> simp_all

/-- Only the consumption disarms a cancel. -/
theorem LedgerStep.pending (h : LedgerStep arms l l')
    (hl : l.stage ≠ .waiting) : l'.pending = (l.pending || arms) := by
  cases h <;> simp_all

/-- The consumption leaves no cancel armed. -/
theorem LedgerStep.consumed (h : LedgerStep arms l l') (hl : l.stage = .waiting)
    (hl' : l'.stage ≠ .waiting) : l'.pending = false := by
  cases h <;> simp_all

end LedgerStep

/-! ## The ledger of a state -/

variable {Value : Type} {e : Execution} {s t : State Value}

def Phase.stage : Phase Value → Stage
  | start => .waiting
  | announcing preCancelled => .consumed preCancelled
  | registering preCancelled => .consumed preCancelled
  | selecting => .registered
  | borrowing => .registered
  | capturing => .registered
  | executing => .registered
  | opened _ => .registered
  | streaming _ _ => .registered
  | received _ _ _ => .registered
  | finishing _ _ => .registered
  | recording active _ _ => .removed active.cancelled
  | closing outcome _ => .recorded outcome
  | finished _ => .finished

/-- The outcomes published for the run. -/
def finishes (runId : QueryRunId) (events : List AppEvent) :
    List QueryOutcome :=
  events.filterMap fun event =>
    match event with
    | .queryFinished run outcome => if run = runId then some outcome else none
    | _ => none

def State.ledger (e : Execution) (s : State Value) : Ledger where
  stage := s.phase.stage
  pending := s.pendingCancels e.runId
  active := (s.activeRuns e.runId).map ActiveRun.cancelled
  completed := (s.completedRuns e.runId).map QueryRun.outcome
  finishes := finishes e.runId s.published

/-- The step inserts the run in `pending_cancels`. -/
def Action.arms : Action Value → Bool
  | cancel _ .arm => true
  | _ => false

/-- `run` ends: the run is still registered. -/
theorem finishRun_ledger (hstage : s.phase.stage = .registered)
    (result : RunResult) : (s.finishRun e result).ledger e = s.ledger e := by
  simp only [State.ledger, hstage]
  rfl

/-- `run` goes on: the run is still registered. -/
theorem ledger_of_registered (hstage : s.phase.stage = .registered)
    {phase : Phase Value} (hphase : phase.stage = .registered) :
    State.ledger e { s with phase } = s.ledger e := by
  simp only [State.ledger, hstage, hphase]

/-- A step between two phases of one stage that leaves the maps alone. -/
theorem LedgerStep.of_eq (h : t.ledger e = s.ledger e) :
    LedgerStep false (s.ledger e) (t.ledger e) := by
  rw [h]
  exact .stutter _

theorem execNext_ledger {a : ExecAction Value} (h : execNext e s a = some t) :
    LedgerStep false (s.ledger e) (t.ledger e) := by
  cases execStep_of_next h with
  | consume hphase ht =>
      have hstage : (s.ledger e).stage = .waiting := by
        simp [State.ledger, hphase, Phase.stage]
      subst ht
      simpa [State.ledger, Phase.stage] using LedgerStep.consume hstage
  | announce preCancelled hphase ht =>
      subst ht
      apply LedgerStep.of_eq
      simp [State.ledger, State.publish, hphase, Phase.stage, finishes]
  | registerCancelled hphase ht =>
      have hstep := LedgerStep.register
        (show (s.ledger e).stage = .consumed true by
          simp [State.ledger, hphase, Phase.stage])
      subst ht
      simpa [State.ledger, State.finishRun, Phase.stage] using hstep
  | register hphase ht =>
      have hstep := LedgerStep.register
        (show (s.ledger e).stage = .consumed false by
          simp [State.ledger, hphase, Phase.stage])
      subst ht
      simpa [State.ledger, Phase.stage] using hstep
  | select hphase _ ht =>
      subst ht
      exact .of_eq (ledger_of_registered (by rw [hphase]; rfl) rfl)
  | selectFailed hphase _ ht =>
      subst ht
      exact .of_eq (finishRun_ledger (by rw [hphase]; rfl) _)
  | borrow hphase ht =>
      subst ht
      exact .of_eq (ledger_of_registered (by rw [hphase]; rfl) rfl)
  | borrowFailed hphase ht =>
      subst ht
      exact .of_eq (finishRun_ledger (by rw [hphase]; rfl) _)
  | capture hphase hactive _ ht =>
      subst ht
      apply LedgerStep.of_eq
      simp [State.ledger, hphase, hactive, Phase.stage]
  | captureCancelled hphase hactive _ ht =>
      subst ht
      apply LedgerStep.of_eq
      simp [State.ledger, State.finishRun, hphase, hactive, Phase.stage]
  | captureMissing hphase _ ht =>
      subst ht
      exact .of_eq (ledger_of_registered (by rw [hphase]; rfl) rfl)
  | execute hphase ht =>
      subst ht
      exact .of_eq (ledger_of_registered (by rw [hphase]; rfl) rfl)
  | executeFailed hphase ht =>
      subst ht
      exact .of_eq (finishRun_ledger (by rw [hphase]; rfl) _)
  | deliverColumns columns hphase ht =>
      subst ht
      exact .of_eq (ledger_of_registered (by rw [hphase]; rfl) rfl)
  | nextBatch columns totalRows hphase ht =>
      subst ht
      exact .of_eq (ledger_of_registered (by rw [hphase]; rfl) rfl)
  | streamEnd columns totalRows hphase ht =>
      subst ht
      exact .of_eq (finishRun_ledger (by rw [hphase]; rfl) _)
  | streamFailed columns totalRows hphase ht =>
      subst ht
      exact .of_eq (finishRun_ledger (by rw [hphase]; rfl) _)
  | announceRows columns totalRows count hphase ht =>
      subst ht
      apply LedgerStep.of_eq
      simp [State.ledger, State.publish, hphase, Phase.stage, finishes]
  | remove result resultSet hphase hactive ht =>
      have hstage : (s.ledger e).stage = .registered := by
        simp [State.ledger, hphase, Phase.stage]
      have hstep := LedgerStep.remove hstage
        (congrArg (Option.map ActiveRun.cancelled) hactive)
      subst ht
      simpa [State.ledger, Phase.stage] using hstep
  | removeMissing result resultSet hphase hactive ht =>
      have hstage : (s.ledger e).stage = .registered := by
        simp [State.ledger, hphase, Phase.stage]
      have hstep := LedgerStep.vanish hstage
        (congrArg (Option.map ActiveRun.cancelled) hactive)
      subst ht
      simpa [State.ledger, Phase.stage, hactive] using hstep
  | record active result resultSet hphase ht =>
      have hstage : (s.ledger e).stage = .removed active.cancelled := by
        simp [State.ledger, hphase, Phase.stage]
      have houtcome : active.cancelled = true →
          outcomeOf active.cancelled result = .cancelled := by
        intro hcancelled
        simp [outcomeOf, hcancelled]
      have hstep := LedgerStep.record hstage houtcome
      subst ht
      simpa [State.ledger, Phase.stage] using hstep
  | announceFinish outcome returned hphase ht =>
      have hstep := LedgerStep.announce
        (show (s.ledger e).stage = .recorded outcome by
          simp [State.ledger, hphase, Phase.stage])
      subst ht
      simpa [State.ledger, State.publish, Phase.stage, finishes] using hstep

theorem cancelNext_ledger {i : Nat} {a : CancelAction}
    (h : cancelNext e.runId s i a = some t) :
    LedgerStep (Action.cancel i a : Action Value).arms (s.ledger e)
      (t.ledger e) := by
  unfold cancelNext at h
  split at h
  · split at h
    · rename_i active hactive
      obtain rfl := Option.some.inj h
      have hstep := LedgerStep.flag
        (show (s.ledger e).active = some active.cancelled by
          simp [State.ledger, hactive])
      simpa [State.ledger, Action.arms] using hstep
    · obtain rfl := Option.some.inj h
      exact LedgerStep.of_eq rfl
  · obtain rfl := Option.some.inj h
    exact LedgerStep.of_eq rfl
  · obtain rfl := Option.some.inj h
    simpa [State.ledger, Action.arms] using LedgerStep.arm (s.ledger e)
  · obtain rfl := Option.some.inj h
    exact LedgerStep.of_eq rfl
  · cases h

/-- Every step of the service is a step of the ledger. -/
theorem next_ledger {a : Action Value} (h : next e s a = some t) :
    LedgerStep a.arms (s.ledger e) (t.ledger e) := by
  cases a with
  | exec action => exact execNext_ledger h
  | cancel i action => exact cancelNext_ledger h

theorem consistent_of_fresh (h : Fresh e s) : (s.ledger e).Consistent := by
  have hfinishes : finishes e.runId s.published = [] := by
    apply List.filterMap_eq_nil_iff.2
    intro event hmem
    have habout := h.published event hmem
    cases event <;> simp_all [AppEvent.isAbout]
  simp [Ledger.Consistent, State.ledger, h.phase, h.activeRuns,
    h.completedRuns, hfinishes, Phase.stage]

theorem consistent_of_reachable (h : (system e).Reachable s) :
    (s.ledger e).Consistent :=
  h.invariant (I := fun u => (u.ledger e).Consistent)
    (fun _ => consistent_of_fresh)
    fun _ _ _ hstep hu => (next_ledger hstep).consistent hu

/-! ## Cancels that arm in time -/

/-- A cancel is armed only while the execution has not yet taken what was in
`pending_cancels`. -/
def ArmsInTime (s : State Value) (a : Action Value) : Prop :=
  a.arms = true → s.phase.stage = .waiting

/-- The call has flagged the run or armed its cancel. -/
def CancelPhase.lodged : CancelPhase → Bool
  | signalling => true
  | returned => true
  | _ => false

/-- Every cancel lodged before the removal of the run is on record. -/
def LodgedNoted (e : Execution) (s : State Value) : Prop :=
  ∀ i, (s.cancels i).lodged = true → s.phase.stage.beforeRemoval = true →
    (s.ledger e).Noted

/-- A step of the execution moves no cancel. -/
theorem execNext_cancels {a : ExecAction Value}
    (h : execNext e s a = some t) : t.cancels = s.cancels := by
  unfold execNext at h
  repeat' split at h
  all_goals first
    | cases h; done
    | obtain rfl := Option.some.inj h; rfl

/-- A step of a cancel moves no other cancel and not the execution. -/
theorem cancelNext_frame {i : Nat} {a : CancelAction}
    (h : cancelNext e.runId s i a = some t) :
    t.phase = s.phase ∧ ∀ k, k ≠ i → t.cancels k = s.cancels k := by
  unfold cancelNext at h
  repeat' split at h
  all_goals first
    | cases h; done
    | obtain rfl := Option.some.inj h
      exact ⟨rfl, fun k hk => Function.update_of_ne hk _ _⟩

/-- A cancel that lodges in time is on record. -/
theorem cancelNext_noted {i : Nat} {a : CancelAction}
    (hs : (s.ledger e).Consistent) (hlodged : LodgedNoted e s)
    (h : cancelNext e.runId s i a = some t)
    (htime : ArmsInTime s (.cancel i a)) (hi : (t.cancels i).lodged = true)
    (hbefore : s.phase.stage.beforeRemoval = true) :
    (t.ledger e).Noted := by
  have hstep := cancelNext_ledger h
  unfold cancelNext at h
  split at h
  · split at h
    · rename_i active hactive
      obtain rfl := Option.some.inj h
      -- a run in `active_runs` is registered
      have hregistered : s.phase.stage = .registered := by
        have hconsistent := hs
        cases hstage : s.phase.stage <;>
          simp_all [Ledger.Consistent, State.ledger]
      simp [Ledger.Noted, State.ledger, hregistered]
    · obtain rfl := Option.some.inj h
      simp [CancelPhase.lodged] at hi
  · obtain rfl := Option.some.inj h
    -- a run in `completed_runs` has been removed
    have hnone : s.completedRuns e.runId = none := by
      cases hstage : s.phase.stage <;>
        simp_all [Ledger.Consistent, State.ledger, Stage.beforeRemoval]
    simp [hnone, CancelPhase.lodged] at hi
  · obtain rfl := Option.some.inj h
    have hwaiting : s.phase.stage = .waiting := htime rfl
    simp [Ledger.Noted, State.ledger, hwaiting]
  · rename_i hsignalling
    exact hstep.noted hs (hlodged i (by rw [hsignalling]; rfl) hbefore)
  · cases h

theorem lodgedNoted_step {a : Action Value} (hs : (s.ledger e).Consistent)
    (hlodged : LodgedNoted e s) (h : next e s a = some t)
    (htime : ArmsInTime s a) : LodgedNoted e t := by
  intro i hi hbefore
  have hstep := next_ledger h
  have hbefore' : s.phase.stage.beforeRemoval = true :=
    hstep.beforeRemoval hbefore
  cases a with
  | exec action =>
      rw [execNext_cancels h] at hi
      exact hstep.noted hs (hlodged i hi hbefore')
  | cancel k action =>
      by_cases hik : i = k
      · subst hik
        exact cancelNext_noted hs hlodged h htime hi hbefore'
      · rw [(cancelNext_frame h).2 i hik] at hi
        exact hstep.noted hs (hlodged i hi hbefore')

theorem lodgedNoted_of_reachable
    (h : ((system e).restrict ArmsInTime).Reachable s) : LodgedNoted e s := by
  have hboth : (s.ledger e).Consistent ∧ LodgedNoted e s := by
    apply h.invariant (I := fun u => (u.ledger e).Consistent ∧ LodgedNoted e u)
    · intro u hfresh
      refine ⟨consistent_of_fresh hfresh, fun i hi => ?_⟩
      simp [hfresh.cancels i, CancelPhase.lodged] at hi
    · intro u a v hstep hu
      exact ⟨(next_ledger hstep.1).consistent hu.1,
        lodgedNoted_step hu.1 hu.2 hstep.1 hstep.2⟩
  exact hboth.2

/-! ## Runs -/

/-- The run is recorded, and its end published once, as cancelled. -/
def CancelKept (e : Execution) (t : State Value) : Prop :=
  (∃ run, t.completedRuns e.runId = some run ∧ run.outcome = .cancelled) ∧
    finishes e.runId t.published = [.cancelled]

/-- In the run over `ls` from `s₀` to `t`, every cancel that returned before the
removal of the run is kept, and none is armed in the end. -/
def NoCancelLost (e : Execution) (s₀ : State Value) (ls : List (Action Value))
    (t : State Value) : Prop :=
  (∀ ls₁ ls₂ s i, ls = ls₁ ++ ls₂ → (system e).Run s₀ ls₁ s →
      (system e).Run s ls₂ t → s.cancels i = .returned →
      s.phase.stage.beforeRemoval = true → CancelKept e t) ∧
    t.pendingCancels e.runId = false

theorem noted_run {ls : List (Action Value)} (h : (system e).Run s ls t)
    (hs : (s.ledger e).Consistent) (hnoted : (s.ledger e).Noted) :
    (t.ledger e).Consistent ∧ (t.ledger e).Noted := by
  refine h.preserves (I := fun u => (u.ledger e).Consistent ∧
    (u.ledger e).Noted) ?_ ⟨hs, hnoted⟩
  intro u a v hstep hu
  exact ⟨(next_ledger hstep).consistent hu.1, (next_ledger hstep).noted hu.1 hu.2⟩

theorem cancelKept_of_noted (ht : (t.ledger e).Consistent)
    (hnoted : (t.ledger e).Noted) (hfinished : t.phase.stage = .finished) :
    CancelKept e t := by
  have hstage : (t.ledger e).stage = .finished := hfinished
  simp only [Ledger.Consistent, Ledger.Noted, hstage] at ht hnoted
  obtain ⟨-, outcome, hcompleted, hfinishes⟩ := ht
  obtain rfl : outcome = .cancelled := by simpa [hnoted] using hcompleted.symm
  exact ⟨Option.map_eq_some_iff.1 hcompleted, hfinishes⟩

/-- A cancel armed after the consumption stays armed. -/
theorem pending_run {ls : List (Action Value)} (h : (system e).Run s ls t)
    (hstage : s.phase.stage ≠ .waiting)
    (hpending : s.pendingCancels e.runId = true) :
    t.pendingCancels e.runId = true := by
  have hboth : t.phase.stage ≠ .waiting ∧ t.pendingCancels e.runId = true := by
    refine h.preserves (I := fun u => u.phase.stage ≠ .waiting ∧
      u.pendingCancels e.runId = true) ?_ ⟨hstage, hpending⟩
    intro u a v hstep hu
    have hledger := next_ledger hstep
    refine ⟨fun hv => hu.1 (hledger.waiting hv), ?_⟩
    have hv := hledger.pending hu.1
    simpa [State.ledger, hu.2] using hv
  exact hboth.2

/-- Before the consumption every cancel arms in time. -/
theorem armsInTime_of_waiting {ls : List (Action Value)}
    (h : (system e).Run s ls t) (ht : t.phase.stage = .waiting) :
    ((system e).restrict ArmsInTime).Run s ls t := by
  induction h with
  | nil => exact .nil _
  | snoc _ hstep ih =>
      have hbefore := (next_ledger hstep).waiting ht
      exact (ih hbefore).snoc ⟨hstep, fun _ => hbefore⟩

/-- If all cancels arm in time, none is armed behind the consumption. -/
theorem disarmed_of_armsInTime {ls : List (Action Value)}
    (h : ((system e).restrict ArmsInTime).Run s ls t)
    (hs : s.phase.stage = .waiting) (ht : t.phase.stage ≠ .waiting) :
    t.pendingCancels e.runId = false := by
  induction h with
  | nil => exact absurd hs ht
  | @snoc u v ls a hrun hstep ih =>
      have hledger := next_ledger hstep.1
      by_cases hu : u.phase.stage = .waiting
      · exact hledger.consumed hu ht
      · have harms : a.arms = false :=
          Bool.eq_false_iff.2 fun htrue => hu (hstep.2 htrue)
        have hv : v.pendingCancels e.runId
            = (u.pendingCancels e.runId || a.arms) := hledger.pending hu
        rw [hv, ih hu, harms, Bool.or_false]

/-- If none is armed behind the consumption, all cancels have armed in time. -/
theorem armsInTime_of_disarmed {ls : List (Action Value)}
    (h : (system e).Run s ls t) (ht : t.pendingCancels e.runId = false) :
    ((system e).restrict ArmsInTime).Run s ls t := by
  induction h with
  | nil => exact .nil _
  | @snoc u v ls a hrun hstep ih =>
      by_cases hu : u.phase.stage = .waiting
      · exact (armsInTime_of_waiting hrun hu).snoc ⟨hstep, fun _ => hu⟩
      · have hv : v.pendingCancels e.runId
            = (u.pendingCancels e.runId || a.arms) :=
          (next_ledger hstep).pending hu
        obtain ⟨hpending, harms⟩ := Bool.or_eq_false_iff.1 (hv.symm.trans ht)
        exact (ih hpending).snoc
          ⟨hstep, fun htrue => by simp [harms] at htrue⟩

/-- A completed execution loses no cancel exactly if no cancel armed itself
after the execution had taken what was in `pending_cancels`. -/
theorem noCancelLost_iff {s₀ : State Value} {ls : List (Action Value)}
    (hfresh : Fresh e s₀) (hrun : (system e).Run s₀ ls t)
    (hfinished : t.phase.stage = .finished) :
    NoCancelLost e s₀ ls t ↔ ((system e).restrict ArmsInTime).Run s₀ ls t := by
  have hwaiting : s₀.phase.stage = .waiting := by rw [hfresh.phase]; rfl
  constructor
  · intro hkept
    exact armsInTime_of_disarmed hrun hkept.2
  · intro hrestricted
    have hdisarmed : t.pendingCancels e.runId = false :=
      disarmed_of_armsInTime hrestricted hwaiting (by simp [hfinished])
    refine ⟨?_, hdisarmed⟩
    intro ls₁ ls₂ s i _ hbefore hafter hreturned hremoval
    have harms : ((system e).restrict ArmsInTime).Run s₀ ls₁ s := by
      by_cases hs : s.phase.stage = .waiting
      · exact armsInTime_of_waiting hbefore hs
      · apply armsInTime_of_disarmed hbefore
        refine Bool.eq_false_iff.2 fun hpending => ?_
        simp [pending_run hafter hs hpending] at hdisarmed
    have hnoted : (s.ledger e).Noted :=
      lodgedNoted_of_reachable ⟨s₀, ls₁, hfresh, harms⟩ i
        (by rw [hreturned]; rfl) hremoval
    have hconsistent : (s.ledger e).Consistent :=
      consistent_of_reachable ⟨s₀, ls₁, hfresh, hbefore⟩
    obtain ⟨ht, htnoted⟩ := noted_run hafter hconsistent hnoted
    exact cancelKept_of_noted ht htnoted hfinished

/-- A run cancelled before it started. -/
theorem noCancelLost_cancelled_before_start :
    ∃ (e : Execution) (ls : List (Action Nat)) (t : State Nat),
      NoCancelLost e State.new ls t := by
  let e : Execution := ⟨⟨"r"⟩, ⟨"q"⟩, "SELECT 1", ⟨"c"⟩, 0, false⟩
  let ls : List (Action Nat) :=
    [.cancel 0 .flag, .cancel 0 .check, .cancel 0 .arm, .exec .consume,
      .exec .announce, .exec .register, .exec .remove, .exec (.record 0),
      .exec .announceFinish]
  have hsome : (System.follow (next e) State.new ls).isSome = true := by decide
  obtain ⟨t, ht⟩ := Option.isSome_iff_exists.1 hsome
  have hstage : (System.follow (next e) State.new ls).map
      (fun t => (t.phase.stage, t.pendingCancels e.runId))
        = some (.finished, false) := by decide
  rw [ht] at hstage
  obtain ⟨hfinished, hdisarmed⟩ := Prod.mk.inj (Option.some.inj hstage)
  have hrun : (system e).Run State.new ls t :=
    System.run_of_follow (fun _ _ _ h => h) ht
  exact ⟨e, ls, t, (noCancelLost_iff (fresh_new e) hrun hfinished).2
    (armsInTime_of_disarmed hrun hdisarmed)⟩

/-- A cancel that arms itself between the consumption of `pending_cancels` and
the registration of the run is lost. -/
theorem cancel_lost_before_registration :
    ¬ ∀ (e : Execution) (s₀ : State Nat) (ls : List (Action Nat))
      (t : State Nat), Fresh e s₀ → (system e).Run s₀ ls t →
        t.phase.stage = .finished → NoCancelLost e s₀ ls t := by
  intro hclaim
  let e : Execution := ⟨⟨"r"⟩, ⟨"q"⟩, "SELECT 1", ⟨"c"⟩, 0, false⟩
  let pools : PoolSet := ⟨⟨0, .user, 8⟩, ⟨0, .metadata, 1⟩⟩
  let ls₁ : List (Action Nat) :=
    [.cancel 0 .flag, .cancel 0 .check, .exec .consume, .cancel 0 .arm]
  let ls₂ : List (Action Nat) :=
    [.exec .announce, .exec .register,
      .exec (.select (some ⟨.connected, some pools⟩)), .exec (.borrow (.ok ())),
      .exec .capture, .exec (.execute (.ok [])), .exec .deliverColumns,
      .exec (.nextBatch (.ok none)), .exec .remove, .exec (.record 0),
      .exec .announceFinish]
  let before := System.follow (next e) State.new ls₁
  have hsome : before.isSome = true := by decide
  obtain ⟨s, hs⟩ := Option.isSome_iff_exists.1 hsome
  have hreturned : before.map
      (fun s => (s.cancels 0, s.phase.stage.beforeRemoval))
        = some (.returned, true) := by decide
  have hafter : (before.bind fun s => System.follow (next e) s ls₂).map
      (fun t => (t.phase.stage, finishes e.runId t.published))
        = some (.finished, [.success]) := by decide
  rw [hs] at hreturned hafter
  obtain ⟨t, ht, houtcome⟩ := Option.map_eq_some_iff.1 hafter
  obtain ⟨hfinished, hfinishes⟩ := Prod.mk.inj houtcome
  obtain ⟨hcancel, hremoval⟩ := Prod.mk.inj (Option.some.inj hreturned)
  have hbefore : (system e).Run State.new ls₁ s :=
    System.run_of_follow (fun _ _ _ h => h) hs
  have hrun : (system e).Run s ls₂ t :=
    System.run_of_follow (fun _ _ _ h => h) ht
  have hkept := hclaim e State.new (ls₁ ++ ls₂) t (fresh_new e)
    (hbefore.append hrun) hfinished
  have hcancelled := (hkept.1 ls₁ ls₂ s 0 rfl hbefore hrun hcancel hremoval).2
  rw [hfinishes] at hcancelled
  cases hcancelled

end Tempr.Services.QueryService
