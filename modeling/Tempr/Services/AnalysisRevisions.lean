import Tempr.Services.Analyses

/-!
# Stored revisions grow

Apart from the steps that remove what is stored, a file's stored analysis is only
replaced by one of a newer revision. Swaps that no step starts are not there.
-/

namespace Tempr.Services.Analyses

open Tempr.Support Tempr.Intel

variable {Id : Type}

section Revisions

variable [Unicode] [DecidableEq Id] {parse : Text → Option Node}
  {s t : State Id} {i : ℕ}

omit [Unicode] [DecidableEq Id] in
/-- The stored revision of a file is kept or grows. -/
def KeepsRevision (s t : State Id) (file : SqlFileId) : Prop :=
  ∀ revision, s.revisionOf file = some revision →
    ∃ revision', t.revisionOf file = some revision' ∧ revision ≤ revision'

omit [Unicode] [DecidableEq Id] in
theorem KeepsRevision.of_eq {file : SqlFileId}
    (h : t.analyses file = s.analyses file) : KeepsRevision s t file := by
  intro revision hrevision
  refine ⟨revision, ?_, Nat.le_refl _⟩
  rw [State.revisionOf, h]
  exact hrevision

omit [Unicode] [DecidableEq Id] in
theorem KeepsRevision.trans {u : State Id} {file : SqlFileId}
    (h : KeepsRevision s t file) (h' : KeepsRevision t u file) :
    KeepsRevision s u file := by
  intro revision hrevision
  obtain ⟨revision', hrevision', hle⟩ := h revision hrevision
  obtain ⟨revision'', hrevision'', hle'⟩ := h' revision' hrevision'
  exact ⟨revision'', hrevision'', hle.trans hle'⟩

omit [Unicode] [DecidableEq Id] in
/-- Whether a step clears the stored analyses, or removes that of the file. -/
def clears (file : SqlFileId) (s : State Id) : Action Id → Bool
  | .swapStep i =>
      (s.swaps i).any fun phase =>
        match phase with
        | .clearing _ => true
        | _ => false
  | .forgetStep i =>
      (s.forgets i).any fun call =>
        decide (call.file = file) &&
          match call.phase with
          | .removingAnalysis => true
          | _ => false
  | _ => false

/-- An analysis is stored only over an older revision. -/
theorem analyzeStep_keepsRevision {call : AnalyzeCall} {oldest : SqlFileId}
    (hstep : analyzeStep parse s i call oldest = some t) (file : SqlFileId) :
    KeepsRevision s t file := by
  unfold analyzeStep at hstep
  split at hstep
  case h_9 =>
    rename_i analysis hphase
    split at hstep
    · obtain rfl := Option.some.inj hstep
      exact .of_eq rfl
    · rename_i hhas
      obtain rfl := Option.some.inj hstep
      by_cases hfile : file = call.file
      · subst hfile
        intro revision hrevision
        refine ⟨call.revision, ?_, ?_⟩
        · simp [State.revisionOf, State.goto]
        · rw [State.hasRevision, hrevision] at hhas
          have hlt : ¬ call.revision ≤ revision := by simpa using hhas
          omega
      · exact .of_eq (Function.update_of_ne hfile _ _)
  -- the other steps leave what is stored alone
  all_goals repeat' split at hstep
  all_goals cases hstep
  all_goals exact .of_eq rfl

omit [Unicode] [DecidableEq Id] in
theorem forgetStep_keepsRevision {call : ForgetCall} {file : SqlFileId}
    (hcall : s.forgets i = some call)
    (hclears : clears file s (.forgetStep i) = false)
    (hstep : forgetStep s i call = some t) : KeepsRevision s t file := by
  unfold forgetStep at hstep
  split at hstep <;> rename_i hphase
  · split at hstep
    · cases hstep
    · obtain rfl := Option.some.inj hstep
      exact .of_eq rfl
  · split at hstep
    · cases hstep
    · obtain rfl := Option.some.inj hstep
      have hfile : file ≠ call.file := by
        rintro rfl
        simp [clears, hcall, hphase] at hclears
      exact .of_eq (Function.update_of_ne hfile _ _)
  · cases hstep

theorem keepsRevision_step {a : Action Id} {file : SqlFileId}
    (hstep : next parse s a = some t) (hclears : clears file s a = false) :
    KeepsRevision s t file := by
  cases a with
  | newCatalog catalog =>
      obtain rfl := Option.some.inj hstep
      exact .of_eq rfl
  | analyze i file' revision text =>
      dsimp only [Analyses.next] at hstep
      split at hstep
      · obtain rfl := Option.some.inj hstep
        exact .of_eq rfl
      · cases hstep
  | installSnapshot i snapshot =>
      dsimp only [Analyses.next] at hstep
      split at hstep
      · obtain rfl := Option.some.inj hstep
        exact .of_eq rfl
      · cases hstep
  | setCatalog i catalog =>
      dsimp only [Analyses.next] at hstep
      split at hstep
      · split at hstep
        · obtain rfl := Option.some.inj hstep
          exact .of_eq rfl
        · cases hstep
      · cases hstep
  | forget i file' =>
      dsimp only [Analyses.next] at hstep
      split at hstep
      · obtain rfl := Option.some.inj hstep
        exact .of_eq rfl
      · cases hstep
  | analyzeStep i oldest =>
      obtain ⟨call, -, hmoved⟩ := Option.bind_eq_some_iff.1 hstep
      exact analyzeStep_keepsRevision hmoved file
  | swapStep i =>
      obtain ⟨phase, hi, hmoved⟩ := Option.bind_eq_some_iff.1 hstep
      have hanalyses : t.analyses = s.analyses := by
        cases phase with
        | clearing id => simp [clears, hi] at hclears
        | finished => cases hmoved
        | comparing snapshot =>
            dsimp only [swapStep] at hmoved
            split at hmoved
            · cases hmoved
            · split at hmoved <;> exact Option.some.inj hmoved ▸ rfl
        | forgetting catalog =>
            dsimp only [swapStep] at hmoved
            split at hmoved
            · cases hmoved
            · exact Option.some.inj hmoved ▸ rfl
        | _ => exact Option.some.inj hmoved ▸ rfl
      exact .of_eq (congrFun hanalyses file)
  | forgetStep i =>
      obtain ⟨call, hcall, hmoved⟩ := Option.bind_eq_some_iff.1 hstep
      exact forgetStep_keepsRevision hcall hclears hmoved

/-! ## Swaps that start -/

/-- The swap that a step starts. -/
def Action.swap : Action Id → Option ℕ
  | .installSnapshot i _ => some i
  | .setCatalog i _ => some i
  | _ => none

theorem analyzeStep_swaps {call : AnalyzeCall} {oldest : SqlFileId}
    (hstep : analyzeStep parse s i call oldest = some t) : t.swaps = s.swaps := by
  unfold analyzeStep at hstep
  repeat' split at hstep
  all_goals cases hstep
  all_goals rfl

omit [Unicode] [DecidableEq Id] in
theorem forgetStep_swaps {call : ForgetCall}
    (hstep : forgetStep s i call = some t) : t.swaps = s.swaps := by
  unfold forgetStep at hstep
  repeat' split at hstep
  all_goals cases hstep
  all_goals rfl

theorem swapStep_swaps {phase : SwapPhase Id}
    (hstep : swapStep s i phase = some t) :
    ∃ phase', t.swaps = Function.update s.swaps i (some phase') := by
  unfold swapStep at hstep
  repeat' split at hstep
  all_goals cases hstep
  all_goals exact ⟨_, rfl⟩

/-- A swap that no step starts is not there. -/
theorem next_swaps {a : Action Id} (hstep : next parse s a = some t)
    (ha : a.swap ≠ some i) (hi : s.swaps i = none) : t.swaps i = none := by
  cases a with
  | newCatalog catalog =>
      obtain rfl := Option.some.inj hstep
      exact hi
  | analyze j file revision text =>
      dsimp only [Analyses.next] at hstep
      split at hstep
      · obtain rfl := Option.some.inj hstep
        exact hi
      · cases hstep
  | installSnapshot j snapshot =>
      have hne : i ≠ j := fun heq => ha (congrArg some heq.symm)
      dsimp only [Analyses.next] at hstep
      split at hstep
      · obtain rfl := Option.some.inj hstep
        exact (Function.update_of_ne hne _ _).trans hi
      · cases hstep
  | setCatalog j catalog =>
      have hne : i ≠ j := fun heq => ha (congrArg some heq.symm)
      dsimp only [Analyses.next] at hstep
      split at hstep
      · split at hstep
        · obtain rfl := Option.some.inj hstep
          exact (Function.update_of_ne hne _ _).trans hi
        · cases hstep
      · cases hstep
  | forget j file =>
      dsimp only [Analyses.next] at hstep
      split at hstep
      · obtain rfl := Option.some.inj hstep
        exact hi
      · cases hstep
  | analyzeStep j oldest =>
      obtain ⟨call, -, hmoved⟩ := Option.bind_eq_some_iff.1 hstep
      rw [analyzeStep_swaps hmoved]
      exact hi
  | swapStep j =>
      obtain ⟨phase, hj, hmoved⟩ := Option.bind_eq_some_iff.1 hstep
      have hne : i ≠ j := by
        rintro rfl
        rw [hi] at hj
        cases hj
      obtain ⟨phase', hswaps⟩ := swapStep_swaps hmoved
      rw [hswaps, Function.update_of_ne hne]
      exact hi
  | forgetStep j =>
      obtain ⟨call, -, hmoved⟩ := Option.bind_eq_some_iff.1 hstep
      rw [forgetStep_swaps hmoved]
      exact hi

theorem run_swaps {ls : List (Action Id)} (h : (system parse).Run s ls t)
    (ha : ∀ a ∈ ls, a.swap ≠ some i) (hi : s.swaps i = none) :
    t.swaps i = none := by
  induction h with
  | nil => exact hi
  | snoc _ hlast ih =>
      refine next_swaps hlast (ha _ (by simp)) (ih fun a hmem => ha a ?_)
      exact List.mem_append_left _ hmem

end Revisions

end Tempr.Services.Analyses
