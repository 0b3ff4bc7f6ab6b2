import Tempr.Ui.Session

/-!
# Runs of the editor view

From one call to all runs: a session stays a session, every change of the text
is announced, and undo and redo show the screens that were there.
-/

namespace Tempr.Ui

open Tempr.Editor Tempr.Support
open Tempr.Intel (Analysis CharTables)

/-- The keys that edit at the selections. -/
def Action.Types : Action → Prop
  | .backspace | .delete | .newline | .tab | .cut | .paste _ | .deleteLine
  | .duplicateLine | .moveLineUp | .moveLineDown => True
  | _ => False

/-! ## One call keeps a session -/

theorem editInner_revision (b : Buffer) (revision : ℕ) (edits : List Edit)
    (snapshot : Option SelectionSnapshot) :
    (b.editInner revision edits snapshot).1 = b ∨
      (b.editInner revision edits snapshot).1.revision = revision := by
  by_cases hacceptable : Acceptable b.rope edits
  · rw [Buffer.editInner_of_acceptable hacceptable]
    split
    · exact .inl rfl
    · exact .inr rfl
  · obtain ⟨err, herr⟩ :=
      Buffer.editInner_of_not_acceptable hacceptable revision snapshot
    exact .inl (by rw [herr])

/-- A call keeps the buffer, or gives it the new revision. -/
theorem Acts.revision {view view' : Editor.EditorView} {revision : ℕ}
    (h : Acts revision view view') :
    view'.buffer = view.buffer ∨ view'.buffer.revision = revision := by
  cases h with
  | keep => exact .inl rfl
  | select => exact .inl rfl
  | edit => exact editInner_revision _ _ _ _
  | plainEdit => exact editInner_revision _ _ _ _
  | undo =>
      cases hstack : view.buffer.history.undo with
      | nil => exact .inl (by simp [Buffer.undo_of_nil hstack])
      | cons tx rest => exact .inr (by simp [Buffer.undo_of_cons hstack])
  | redo =>
      cases hstack : view.buffer.history.redo with
      | nil => exact .inl (by simp [Buffer.redo_of_nil hstack])
      | cons tx rest => exact .inr (by simp [Buffer.redo_of_cons hstack])

namespace EditorView

variable {text : Rope} {view : EditorView}

theorem currentAnalysis_eq_some {analysis : Analysis} :
    view.currentAnalysis = some analysis ↔
      view.analysis = some (view.buffer.revision, analysis) := by
  rw [currentAnalysis]
  cases view.analysis with
  | none => simp
  | some p => simp [Prod.ext_iff]

theorem InSession.does {view' : EditorView} {revision : ℕ}
    (h : InSession text view) (hdoes : Does revision view view')
    (hfresh : view.buffer.revision < revision) : InSession text view' := by
  have hrevision := hdoes.acts.revision
  refine ⟨hdoes.acts.sound h.sound, ?_, ?_⟩
  · intro p hp
    rcases hdoes.analysis p hp with hold | ⟨hp, hsame, -⟩
    · have hle := h.analysis_le p hold
      rcases hrevision with hsame | hnew
      · rwa [hsame]
      · omega
    · rw [hp, hsame]
  · intro analysis hanalysis
    rw [currentAnalysis_eq_some] at hanalysis
    rcases hdoes.analysis _ hanalysis with hold | ⟨-, hsame, hfits⟩
    · have hle := h.analysis_le _ hold
      rcases hrevision with hsame | hnew
      · rw [hsame] at hold
        rw [EditorView.text, hsame]
        exact h.analysis_fits analysis (currentAnalysis_eq_some.mpr hold)
      · dsimp only at hle
        omega
    · rwa [EditorView.text, hsame]

theorem inSession_new (revision : ℕ) (text : Rope) :
    InSession text (new revision text) := by
  refine ⟨⟨Buffer.new_faithful revision text, ?_⟩, ?_, ?_⟩
  · have hwell : Screen.WellFormed ⟨text, shown [Selection.cursor 0]⟩ :=
      wellFormed_shown (placed_cursor (isBoundary_zero text))
    rw [shown_cursor] at hwell
    refine ⟨hwell, ?_, ?_⟩
    · rintro e ⟨⟩
    · rintro e ⟨⟩
  · rintro p ⟨⟩
  · rintro analysis ⟨⟩

section Runs

variable [CharTables] {rules : TextRules}

theorem inSession_of_reachable
    (h : ((system rules text).restrict Fits).Reachable view) :
    InSession text view := by
  refine h.invariant ?_ ?_
  · rintro s ⟨revision, rfl⟩
    exact inSession_new revision text
  · rintro s call t ⟨⟨hfresh, rfl⟩, hfits⟩ hs
    exact hs.does (perform_does hs rules hfits) hfresh

/-- Whatever has been pressed, clicked and composed, there is one selection, in
the text; every edit of it succeeds; and a call announces a change of the text
exactly when there is one, and has it analysed. -/
theorem session_sound
    (h : ((system rules text).restrict Fits).Reachable view) :
    Screen.WellFormed ⟨view.text, view.selections⟩ ∧
      (∀ (op : EditOp) (revision : ℕ), op.Fits view.text view.selections →
        Succeeds (view.buffer.runEditOp rules.graphemes revision
          view.selections op)) ∧
      ∀ call, view.Fits call → view.Announces
        (view.perform rules call.service call.revision call.op) := by
  have hsession := inSession_of_reachable h
  have hvalid := hsession.screen.valid
  refine ⟨hsession.screen, ?_, fun call hfits =>
    (perform_does hsession rules hfits).announces⟩
  intro op revision hfits
  cases op with
  | insertAt text => exact Buffer.insertAt_succeeds _ revision hvalid text
  | backspace => exact Buffer.backspace_succeeds _ _ revision hvalid
  | deleteForward => exact Buffer.deleteForward_succeeds _ _ revision hvalid
  | deleteLines => exact Buffer.deleteLines_succeeds _ revision hvalid
  | duplicateLines => exact Buffer.duplicateLines_succeeds _ revision hvalid
  | moveLines direction =>
      exact (Buffer.moveLines_succeeds_iff _ revision hvalid direction).mpr
        hfits

/-! ## Undo and redo -/

/-- The text and the selections that are shown. -/
def screen (view : EditorView) : Screen := ⟨view.text, view.selections⟩

/-- Press undo once for each revision. -/
def undoEach (view : EditorView) (revisions : List ℕ) : EditorView :=
  revisions.foldl (fun view revision => view.undo revision) view

/-- A key edits at the selections, or the input method does. -/
def Op.Types (view : EditorView) : Op → Prop
  | .action key => key.Types
  | .replaceTextInRange none _ | .replaceAndMarkTextInRange none _ =>
      view.markedRange = none
  | _ => False

section Screens

variable {revision : ℕ}

omit [CharTables] in
theorem timeline_view_undo (hfaithful : view.buffer.Faithful text) :
    timeline text (view.undo revision).toEditorView =
      (timeline text view.toEditorView).undo := by
  have hbuffer := Buffer.undoWithSelections_fst view.buffer revision
  rw [undo]
  rcases hresult : view.buffer.undoWithSelections revision with
    ⟨buffer, _ | ⟨id, sels⟩⟩
  · cases hstack : view.buffer.history.undo with
    | nil =>
        refine (Timeline.undo_of_nil ?_).symm
        rw [timeline, hstack, pastScreens]
    | cons tx rest =>
        have hsome := Buffer.undoWithSelections_of_cons hstack revision
        rw [hresult] at hsome
        cases hsome
  · rw [hresult] at hbuffer
    obtain rfl : buffer = _ := hbuffer
    exact timeline_undo hfaithful (congrArg Prod.snd hresult)

omit [CharTables] in
theorem timeline_view_redo (hfaithful : view.buffer.Faithful text) :
    timeline text (view.redo revision).toEditorView =
      (timeline text view.toEditorView).redo := by
  have hbuffer := Buffer.redoWithSelections_fst view.buffer revision
  rw [redo]
  rcases hresult : view.buffer.redoWithSelections revision with
    ⟨buffer, _ | ⟨id, sels⟩⟩
  · cases hstack : view.buffer.history.redo with
    | nil =>
        refine (Timeline.redo_of_nil ?_).symm
        rw [timeline, hstack, futureScreens]
    | cons tx rest =>
        have hsome := Buffer.redoWithSelections_of_cons hstack revision
        rw [hresult] at hsome
        cases hsome
  · rw [hresult] at hbuffer
    obtain rfl : buffer = _ := hbuffer
    exact timeline_redo hfaithful (congrArg Prod.snd hresult)

omit [CharTables] in
theorem timeline_undoEach (hsound : Sound text view.toEditorView)
    (revisions : List ℕ) :
    Sound text (view.undoEach revisions).toEditorView ∧
      timeline text (view.undoEach revisions).toEditorView =
        Timeline.undo^[revisions.length] (timeline text view.toEditorView) := by
  induction revisions generalizing view with
  | nil => exact ⟨hsound, rfl⟩
  | cons revision revisions ih =>
      have hundo : Does revision view (view.undo revision) := undo_does
      obtain ⟨hlast, htimeline⟩ := ih (hundo.acts.sound hsound)
      refine ⟨hlast, htimeline.trans ?_⟩
      rw [List.length_cons, Function.iterate_succ_apply,
        timeline_view_undo hsound.faithful]

theorem applyWith_toEditorView (rules : TextRules) (service : Intelligence)
    (autoComplete : Bool) (view : EditorView)
    (op : Buffer → List Selection → Buffer × Except EditError EditOutcome)
    {buffer : Buffer} {made : Option ℕ} {sels : List Selection}
    (hresult : op view.buffer view.selections = (buffer, .ok ⟨made, sels⟩)) :
    (view.applyWith rules service autoComplete op).toEditorView =
      ({ view.toEditorView with
        buffer := buffer } : Editor.EditorView).setSelections sels := by
  rw [applyWith, hresult]
  exact congrArg Prod.fst (shownEdit_core rules service _ autoComplete made)

/-- An edit at the selections keeps the buffer, or records the screens before
and after it. -/
theorem applyWith_records (rules : TextRules) (service : Intelligence)
    (autoComplete : Bool)
    (op : Buffer → List Selection → Buffer × Except EditError EditOutcome)
    (hsession : InSession text view)
    (h : Records revision view.buffer (normalize view.selections)
      (op view.buffer view.selections)) :
    (view.applyWith rules service autoComplete op).buffer = view.buffer ∨
      timeline text
          (view.applyWith rules service autoComplete op).toEditorView =
        (timeline text view.toEditorView).perform (.record view.screen
          (view.applyWith rules service autoComplete op).screen
          (view.applyWith rules service autoComplete op).screen) := by
  have hown : shown (normalize view.selections) = view.selections := by
    rw [hsession.screen.placed.normalize_eq]
    exact shown_of_wellFormed hsession.screen
  rcases hresult : op view.buffer view.selections with ⟨buffer, result⟩
  rw [hresult] at h
  cases h with
  | rejected err =>
      rw [applyWith, hresult]
      exact .inl rfl
  | idle hvalid =>
      rw [applyWith_toEditorView rules service autoComplete view op hresult]
      exact .inl rfl
  | made hmade hbefore hafter =>
      have hbase :=
        applyWith_toEditorView rules service autoComplete view op hresult
      have hscreen := congrArg (fun base : Editor.EditorView =>
        (⟨base.buffer.rope, base.selections⟩ : Screen)) hbase
      rw [hbase, show (view.applyWith rules service autoComplete op).screen = _
        from hscreen]
      rcases timeline_editInner hsession.sound.faithful revision _
        (some ⟨normalize view.selections, _⟩) _ with hsame | hrecord
      · exact .inl hsame
      · refine .inr (hrecord.trans ?_)
        simp only [Option.map_some, restored, Option.getD_some, hown]
        rfl

theorem cut_records (hsession : InSession text view) (rules : TextRules)
    (service : Intelligence) :
    (view.cut rules service revision).buffer = view.buffer ∨
      timeline text (view.cut rules service revision).toEditorView =
        (timeline text view.toEditorView).perform (.record view.screen
          (view.cut rules service revision).screen
          (view.cut rules service revision).screen) := by
  obtain ⟨asked, -, hcore⟩ := view.copy_core
  simp only [core, Prod.mk.injEq] at hcore
  obtain ⟨hbase, hanalysis, -⟩ := hcore
  rw [cut]
  split
  · have hcopy : InSession text view.copy := by
      refine ⟨hbase ▸ hsession.sound, ?_, ?_⟩
      · rw [hanalysis, hbase]
        exact hsession.analysis_le
      · simpa only [currentAnalysis, EditorView.text, hanalysis, hbase]
          using hsession.analysis_fits
    have hrecords := applyWith_records rules service false
      (fun b s => b.insertAt revision s []) hcopy
      (records_insertAt (b := view.copy.buffer) hcopy.screen.placed [])
    simpa only [applyStructural, hbase, screen, EditorView.text]
      using hrecords
  · exact .inl (by rw [hbase])

theorem insertText_records (hsession : InSession text view)
    (rules : TextRules) (service : Intelligence) (newText : List Char) :
    (view.insertText rules service revision newText).buffer = view.buffer ∨
      timeline text
          (view.insertText rules service revision newText).toEditorView =
        (timeline text view.toEditorView).perform (.record view.screen
          (view.insertText rules service revision newText).screen
          (view.insertText rules service revision newText).screen) :=
  applyWith_records rules service true
    (fun b s => b.insertAt revision s newText) hsession
    (records_insertAt (b := view.buffer) hsession.screen.placed newText)

theorem dispatch_records (hsession : InSession text view) (rules : TextRules)
    (service : Intelligence) {key : Action} (hkey : key.Types)
    (hfits : view.Fits ⟨service, revision, .action key⟩) :
    (view.dispatch rules service revision key).buffer = view.buffer ∨
      timeline text (view.dispatch rules service revision key).toEditorView =
        (timeline text view.toEditorView).perform (.record view.screen
          (view.dispatch rules service revision key).screen
          (view.dispatch rules service revision key).screen) := by
  have hplaced := hsession.screen.placed
  cases key with
  | backspace =>
      exact applyWith_records rules service true
        (fun b s => b.backspace rules.graphemes revision s) hsession
        (records_backspace (b := view.buffer) rules.graphemes hplaced)
  | delete =>
      exact applyWith_records rules service true
        (fun b s => b.deleteForward rules.graphemes revision s) hsession
        (records_deleteForward (b := view.buffer) rules.graphemes hplaced)
  | newline | tab => exact insertText_records hsession rules service _
  | cut => exact cut_records hsession rules service
  | paste clipboard =>
      cases clipboard with
      | none => exact .inl rfl
      | some pasted => exact insertText_records hsession rules service pasted
  | deleteLine =>
      exact applyWith_records rules service false
        (fun b s => b.deleteLines revision s) hsession
        (records_deleteLines (b := view.buffer) hplaced)
  | duplicateLine =>
      exact applyWith_records rules service false
        (fun b s => b.duplicateLines revision s) hsession
        (records_duplicateLines (b := view.buffer) hplaced)
  | moveLineUp =>
      exact applyWith_records rules service false
        (fun b s => b.moveLines revision s .up) hsession
        (records_moveLines (b := view.buffer) hplaced hfits)
  | moveLineDown =>
      exact applyWith_records rules service false
        (fun b s => b.moveLines revision s .down) hsession
        (records_moveLines (b := view.buffer) hplaced hfits)
  | _ => exact absurd hkey id

/-- An edit at the selections keeps the buffer, or records what was shown. -/
theorem perform_records (hsession : InSession text view) (rules : TextRules)
    {call : Call} (htypes : call.op.Types view) (hfits : view.Fits call) :
    (view.perform rules call.service call.revision call.op).buffer =
        view.buffer ∨
      timeline text (view.perform rules call.service call.revision
          call.op).toEditorView =
        (timeline text view.toEditorView).perform (.record view.screen
          (view.perform rules call.service call.revision call.op).screen
          (view.perform rules call.service call.revision call.op).screen) := by
  obtain ⟨service, revision, op⟩ := call
  have hunmarked : InSession text { view with markedRange := none } :=
    ⟨hsession.sound, hsession.analysis_le, hsession.analysis_fits⟩
  cases op with
  | action key => exact dispatch_records hsession rules service htypes hfits
  | replaceTextInRange range newText =>
      cases range with
      | some range => exact absurd htypes id
      | none =>
          have hnone : view.markedRange = none := htypes
          rw [perform, replaceTextInRange, hnone]
          exact insertText_records hunmarked rules service newText
  | replaceAndMarkTextInRange range newText =>
      cases range with
      | some range => exact absurd htypes id
      | none =>
          have hnone : view.markedRange = none := htypes
          rw [perform, replaceAndMarkTextInRange, replaceTextInRange, hnone]
          exact insertText_records hunmarked rules service newText
  | _ => exact absurd htypes id

end Screens

omit [CharTables] in
theorem pastScreens_append (text : Rope) (txs rest : List Transaction) :
    ∃ es, es.length = txs.length ∧
      pastScreens text (txs ++ rest) = es ++ pastScreens text rest := by
  induction txs with
  | nil => exact ⟨[], rfl, rfl⟩
  | cons tx txs ih =>
      obtain ⟨es, hlength, hes⟩ := ih
      exact ⟨entry (replayStack text (txs ++ rest)) tx :: es,
        by simp [hlength], by simp [pastScreens, hes]⟩

/-- The view is one that keeps whole screens: every call is an event of its
timeline.  However an edit at the selections is followed up, undoing back to it
shows the text and the selections that it was made from, and redoing it then
shows those that it left. -/
theorem undo_shows_screens
    (h : ((system rules text).restrict Fits).Reachable view) :
    (∀ call, view.Fits call → ∃ event : Timeline.Event Screen,
      event.All Screen.WellFormed ∧
        timeline text (view.perform rules call.service call.revision
          call.op).toEditorView =
          (timeline text view.toEditorView).perform event) ∧
      ∀ call edited, view.Fits call → call.op.Types view →
        edited = view.perform rules call.service call.revision call.op →
        edited.buffer ≠ view.buffer →
        ∀ later, ((system rules text).restrict Fits).Reachable later →
        ∀ txs, later.buffer.history.undo =
          txs ++ edited.buffer.history.undo →
        ∀ revisions, revisions.length = txs.length + 1 →
          (later.undoEach revisions).screen = view.screen ∧
            ∀ revision, ((later.undoEach revisions).redo revision).screen =
              edited.screen := by
  have hsession := inSession_of_reachable h
  refine ⟨fun call hfits =>
    (perform_does hsession rules hfits).acts.event hsession.sound, ?_⟩
  rintro call edited hfits htypes rfl hne later hlater txs hstack revisions
    hlength
  rcases perform_records hsession rules htypes hfits with hsame | hrecord
  · exact absurd hsame hne
  · generalize view.perform rules call.service call.revision call.op = edited
      at hrecord hstack
    have hpast : pastScreens text edited.buffer.history.undo =
        (view.screen, edited.screen) ::
          (timeline text view.toEditorView).past :=
      congrArg Timeline.past hrecord
    obtain ⟨es, hes, happend⟩ :=
      pastScreens_append text txs edited.buffer.history.undo
    rw [← hstack, hpast] at happend
    obtain ⟨hsound, hundone⟩ :=
      timeline_undoEach (inSession_of_reachable hlater).sound revisions
    rw [hlength, ← hes, Timeline.iterate_undo happend] at hundone
    refine ⟨congrArg Timeline.now hundone, fun revision => ?_⟩
    have hredone : timeline text ((later.undoEach revisions).redo
        revision).toEditorView = _ := timeline_view_redo hsound.faithful
    rw [hundone, Timeline.redo_of_cons rfl] at hredone
    exact congrArg Timeline.now hredone

end Runs

section Sample

local instance tablesSession : CharTables := CharTables.ascii

/-- Characters for segments, and no statements. -/
def plainRules : TextRules where
  graphemes := charGraphemes
  words := charGraphemes
  statementAt _ _ := none

/-- A service that knows nothing. -/
def silentService : Intelligence where
  complete _ _ _ := []
  hover _ _ := none
  analysis _ := none

/-- "ab" with the cursor behind it. -/
def abView : EditorView :=
  (new 0 "ab".toList).perform plainRules silentService 1
    (.action .documentEnd)

/-- The line break that is typed there. -/
def abBroken : EditorView :=
  abView.perform plainRules silentService 1 (.action .newline)

/-- The whole text, selected after it. -/
def abSelected : EditorView :=
  abBroken.perform plainRules silentService 2 (.action .selectAll)

theorem abView_reachable :
    ((system plainRules "ab".toList).restrict Fits).Reachable abView :=
  .step (l := ⟨silentService, 1, .action .documentEnd⟩)
    (.init ⟨0, rfl⟩) ⟨⟨by decide, rfl⟩, trivial⟩

theorem abSelected_reachable :
    ((system plainRules "ab".toList).restrict Fits).Reachable abSelected :=
  .step (l := ⟨silentService, 2, .action .selectAll⟩)
    (.step (l := ⟨silentService, 1, .action .newline⟩) abView_reachable
      ⟨⟨by decide, rfl⟩, trivial⟩) ⟨⟨by decide, rfl⟩, trivial⟩

/-- Both ends of the text can be selected. -/
theorem session_sound_selected :
    Screen.WellFormed ⟨abSelected.text, abSelected.selections⟩ ∧
      abSelected.selections = [⟨0, 3⟩] :=
  ⟨(session_sound abSelected_reachable).1, by decide⟩

/-- Undo brings back the cursor behind "ab". -/
theorem undo_shows_screens_broken :
    (abSelected.undoEach [3]).screen = ⟨"ab".toList, [Selection.cursor 2]⟩ :=
  ((undo_shows_screens abView_reachable).2
    ⟨silentService, 1, .action .newline⟩ abBroken trivial trivial rfl
    (by decide) abSelected abSelected_reachable [] rfl [3] rfl).1.trans
    (by decide)

end Sample

end EditorView

end Tempr.Ui
