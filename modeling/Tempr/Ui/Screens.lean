import Tempr.Editor.Typing
import Tempr.Support.Timeline
import Tempr.Ui.Actions

/-!
# What the editor shows

The buffer keeps the changes of its text byte by byte, with the selections that
some of them were made from.  Read as a timeline of screens, the editor is one
that keeps whole screens: every call of the view either changes the selections,
records the screens before and after a change, or goes back or forth among
them.
-/

namespace Tempr.Ui

open Tempr.Editor Tempr.Support

/-- A text and the selections in it. -/
structure Screen where
  text : Rope
  selections : List Selection
  deriving DecidableEq, Repr

/-- At most one selection, in the text and on character boundaries. -/
structure Placed (text : Rope) (sels : List Selection) : Prop where
  valid : ∀ s ∈ sels, s.Valid text
  length_le : sels.length ≤ 1

/-- There is one selection, in the text and on character boundaries. -/
structure Screen.WellFormed (s : Screen) : Prop where
  valid : ∀ sel ∈ s.selections, sel.Valid s.text
  length_eq : s.selections.length = 1

/-- The selections that a view shows when it is given some. -/
def shown (sels : List Selection) : List Selection :=
  if sels.isEmpty then [Selection.cursor 0] else normalize sels

/-- What undo or redo shows of recorded selections. -/
def restored (sels : Option (List Selection)) : List Selection :=
  shown (sels.getD [Selection.cursor 0])

/-! ## The timeline of a buffer -/

/-- The screens before and after a transaction on a text. -/
def entry (text : Rope) (tx : Transaction) : Screen × Screen :=
  (⟨text, restored (tx.selections.map SelectionSnapshot.before)⟩,
    ⟨tx.replay text, restored (tx.selections.map SelectionSnapshot.after)⟩)

/-- The screens of the transactions that can be undone, on the first text of
the buffer. -/
def pastScreens (text : Rope) : List Transaction → List (Screen × Screen)
  | [] => []
  | tx :: rest => entry (replayStack text rest) tx :: pastScreens text rest

/-- The screens of the transactions that can be redone. -/
def futureScreens (text : Rope) : List Transaction → List (Screen × Screen)
  | [] => []
  | tx :: rest => entry text tx :: futureScreens (tx.replay text) rest

/-- A view as it keeps whole screens. -/
def timeline (text : Rope) (view : Editor.EditorView) : Timeline Screen :=
  ⟨⟨view.buffer.rope, view.selections⟩,
    pastScreens text view.buffer.history.undo,
    futureScreens view.buffer.rope view.buffer.history.redo⟩

/-- The history replays, and every screen it can show is well formed. -/
structure Sound (text : Rope) (view : Editor.EditorView) : Prop where
  faithful : Buffer.Faithful text view.buffer
  screens : (timeline text view).All Screen.WellFormed

/-! ## Selections that are shown -/

section Shown

variable {text : Rope} {sels : List Selection}

theorem normalize_of_length_le (h : sels.length ≤ 1) :
    normalize sels = sels := by
  apply normalize_of_apart
  cases sels with
  | nil => exact .nil
  | cons s rest =>
      obtain rfl : rest = [] := by simpa using h
      exact List.pairwise_singleton _ _

theorem placed_cursor {o : ℕ} (h : text.IsCharBoundary o) :
    Placed text [Selection.cursor o] :=
  ⟨List.forall_mem_singleton.mpr (cursor_valid h), le_rfl⟩

theorem Placed.normalize_eq (h : Placed text sels) : normalize sels = sels :=
  normalize_of_length_le h.length_le

theorem Screen.WellFormed.placed {s : Screen} (h : s.WellFormed) :
    Placed s.text s.selections :=
  ⟨h.valid, h.length_eq.le⟩

theorem wellFormed_shown (h : Placed text sels) :
    Screen.WellFormed ⟨text, shown sels⟩ := by
  rw [shown]
  split
  case isTrue =>
    exact ⟨(placed_cursor (isBoundary_zero text)).valid, rfl⟩
  case isFalse hsome =>
    rw [h.normalize_eq]
    have hpos : 0 < sels.length :=
      List.length_pos_iff.mpr (by simpa using hsome)
    exact ⟨h.valid, le_antisymm h.length_le hpos⟩

theorem shown_of_wellFormed {s : Screen} (h : s.WellFormed) :
    shown s.selections = s.selections := by
  have hsome : s.selections ≠ [] := by
    rw [← List.length_pos_iff, h.length_eq]
    exact Nat.one_pos
  rw [shown, if_neg (by simpa using hsome), h.placed.normalize_eq]

@[simp] theorem shown_cursor (o : ℕ) :
    shown [Selection.cursor o] = [Selection.cursor o] := by
  rw [shown, if_neg (by simp)]
  exact normalize_of_length_le le_rfl

end Shown

/-! ## What a call does -/

/-- A call keeps the buffer and the selections, changes the selections, makes a
recorded edit or one without selections, or goes back or forth. -/
inductive Acts (revision : ℕ) (view : Editor.EditorView) :
    Editor.EditorView → Prop
  | keep : Acts revision view view
  | select {sels : List Selection}
      (hplaced : Placed view.buffer.rope sels) :
      Acts revision view (view.setSelections sels)
  | edit {edits : List Edit} {before after : List Selection}
      {made : Option ℕ}
      (hok : (view.buffer.editWithSelections revision edits before after).2 =
        .ok made)
      (hbefore : Placed view.buffer.rope before)
      (hafter : Placed (view.buffer.editWithSelections revision edits before
        after).1.rope after) :
      Acts revision view ({ view with buffer :=
        (view.buffer.editWithSelections revision edits before
          after).1 }.setSelections after)
  | plainEdit {edits : List Edit} {o : ℕ} {made : Option ℕ}
      (hok : (view.buffer.edit revision edits).2 = .ok made)
      (ho : (view.buffer.edit revision edits).1.rope.IsCharBoundary o) :
      Acts revision view ({ view with buffer :=
        (view.buffer.edit revision edits).1 }.setSelections
          [Selection.cursor o])
  | undo {sels : Option (List Selection)} {id : ℕ}
      (hsome : (view.buffer.undoWithSelections revision).2 = some (id, sels)) :
      Acts revision view ({ view with buffer :=
        (view.buffer.undo revision).1 }.setSelections
          (sels.getD [Selection.cursor 0]))
  | redo {sels : Option (List Selection)} {id : ℕ}
      (hsome : (view.buffer.redoWithSelections revision).2 = some (id, sels)) :
      Acts revision view ({ view with buffer :=
        (view.buffer.redo revision).1 }.setSelections
          (sels.getD [Selection.cursor 0]))

section Timelines

variable {text : Rope} {view : Editor.EditorView} {revision : ℕ}

@[simp] theorem setSelections_selections (view : Editor.EditorView)
    (sels : List Selection) :
    (view.setSelections sels).selections = shown sels := rfl

@[simp] theorem setSelections_buffer (view : Editor.EditorView)
    (sels : List Selection) :
    (view.setSelections sels).buffer = view.buffer := rfl

/-- An edit is a visit when it changes nothing, else a record. -/
theorem timeline_editInner (hfaithful : Buffer.Faithful text view.buffer)
    (revision : ℕ) (edits : List Edit) (snapshot : Option SelectionSnapshot)
    (sels : List Selection) :
    (view.buffer.editInner revision edits snapshot).1 = view.buffer ∨
      timeline text ({ view with buffer := (view.buffer.editInner revision
          edits snapshot).1 }.setSelections sels) =
        (timeline text view).perform (.record
          ⟨view.buffer.rope, restored (snapshot.map SelectionSnapshot.before)⟩
          ⟨(view.buffer.editInner revision edits snapshot).1.rope,
            restored (snapshot.map SelectionSnapshot.after)⟩
          ⟨(view.buffer.editInner revision edits snapshot).1.rope,
            shown sels⟩) := by
  rcases Buffer.editInner_cases view.buffer revision edits snapshot with
    hsame | ⟨changes, hrope, -, hhistory, -⟩
  · exact .inl hsame
  · refine .inr ?_
    simp only [timeline, Timeline.perform, setSelections_buffer,
      setSelections_selections, hhistory, pastScreens, futureScreens, entry,
      ← hfaithful.text_eq, Transaction.replay, hrope]

theorem timeline_undo (hfaithful : Buffer.Faithful text view.buffer)
    {revision id : ℕ} {sels : Option (List Selection)}
    (hsome : (view.buffer.undoWithSelections revision).2 = some (id, sels)) :
    timeline text ({ view with buffer :=
        (view.buffer.undo revision).1 }.setSelections
          (sels.getD [Selection.cursor 0])) = (timeline text view).undo := by
  cases hstack : view.buffer.history.undo with
  | nil =>
      rw [Buffer.undoWithSelections, Buffer.undo_of_nil hstack] at hsome
      cases hsome
  | cons tx rest =>
      rw [Buffer.undoWithSelections_of_cons hstack] at hsome
      obtain ⟨-, rfl⟩ := Prod.mk.inj (Option.some.inj hsome)
      have hrope := hfaithful.revert_top hstack
      have hagain : tx.replay (replayStack text rest) = view.buffer.rope := by
        rw [hfaithful.text_eq, hstack, replayStack]
      have hpast : (timeline text view).past =
          entry (replayStack text rest) tx :: pastScreens text rest := by
        rw [timeline, hstack, pastScreens]
      rw [Timeline.undo_of_cons hpast, Buffer.undo_of_cons hstack]
      simp only [timeline, setSelections_buffer, setSelections_selections]
      rw [hrope, futureScreens, hagain]
      rfl

theorem timeline_redo (hfaithful : Buffer.Faithful text view.buffer)
    {revision id : ℕ} {sels : Option (List Selection)}
    (hsome : (view.buffer.redoWithSelections revision).2 = some (id, sels)) :
    timeline text ({ view with buffer :=
        (view.buffer.redo revision).1 }.setSelections
          (sels.getD [Selection.cursor 0])) = (timeline text view).redo := by
  cases hstack : view.buffer.history.redo with
  | nil =>
      rw [Buffer.redoWithSelections, Buffer.redo_of_nil hstack] at hsome
      cases hsome
  | cons tx rest =>
      rw [Buffer.redoWithSelections_of_cons hstack] at hsome
      obtain ⟨-, rfl⟩ := Prod.mk.inj (Option.some.inj hsome)
      have hfuture : (timeline text view).future =
          entry view.buffer.rope tx ::
            futureScreens (tx.replay view.buffer.rope) rest := by
        rw [timeline, hstack, futureScreens]
      rw [Timeline.redo_of_cons hfuture, Buffer.redo_of_cons hstack]
      simp only [timeline, setSelections_buffer, setSelections_selections,
        pastScreens, ← hfaithful.text_eq]
      rfl

/-- Every call is an event of the timeline, which brings only well formed
screens. -/
theorem Acts.event {view' : Editor.EditorView} (h : Acts revision view view')
    (hsound : Sound text view) :
    ∃ event : Timeline.Event Screen, event.All Screen.WellFormed ∧
      timeline text view' = (timeline text view).perform event := by
  cases h with
  | keep => exact ⟨.visit _, hsound.screens.now, rfl⟩
  | select hplaced =>
      rename_i sels
      exact ⟨.visit ⟨view.buffer.rope, shown sels⟩, wellFormed_shown hplaced,
        rfl⟩
  | edit hok hbefore hafter =>
      rename_i edits before after made
      rcases timeline_editInner hsound.faithful revision edits
        (some ⟨before, after⟩) after with hsame | hrecord
      · refine ⟨.visit ⟨view.buffer.rope, shown after⟩, ?_, ?_⟩
        · rw [Buffer.editWithSelections, hsame] at hafter
          exact wellFormed_shown hafter
        · rw [Buffer.editWithSelections, hsame]
          rfl
      · refine ⟨.record _ _ _, ?_, hrecord⟩
        exact ⟨wellFormed_shown hbefore, wellFormed_shown hafter,
          wellFormed_shown hafter⟩
  | plainEdit hok ho =>
      rename_i edits o made
      have hcursor : ∀ (rope : Rope) (o : ℕ), rope.IsCharBoundary o →
          Screen.WellFormed ⟨rope, shown [Selection.cursor o]⟩ := by
        intro rope o ho
        exact wellFormed_shown (placed_cursor ho)
      rcases timeline_editInner hsound.faithful revision edits none
        [Selection.cursor o] with hsame | hrecord
      · refine ⟨.visit ⟨view.buffer.rope, shown [Selection.cursor o]⟩, ?_, ?_⟩
        · rw [Buffer.edit, hsame] at ho
          exact hcursor _ o ho
        · rw [Buffer.edit, hsame]
          rfl
      · refine ⟨.record _ _ _, ?_, hrecord⟩
        exact ⟨hcursor _ 0 (isBoundary_zero _),
          hcursor _ 0 (isBoundary_zero _), hcursor _ o ho⟩
  | undo hsome =>
      exact ⟨.undo, trivial, timeline_undo hsound.faithful hsome⟩
  | redo hsome =>
      exact ⟨.redo, trivial, timeline_redo hsound.faithful hsome⟩

theorem Acts.sound {view' : Editor.EditorView} (h : Acts revision view view')
    (hsound : Sound text view) : Sound text view' := by
  have hscreens : (timeline text view').All Screen.WellFormed := by
    obtain ⟨event, hall, hevent⟩ := h.event hsound
    rw [hevent]
    exact hsound.screens.perform hall
  refine ⟨?_, hscreens⟩
  cases h with
  | keep => exact hsound.faithful
  | select => exact hsound.faithful
  | edit => exact hsound.faithful.editInner _ _ _
  | plainEdit => exact hsound.faithful.editInner _ _ _
  | undo => exact hsound.faithful.undo _
  | redo => exact hsound.faithful.redo _

end Timelines

end Tempr.Ui
