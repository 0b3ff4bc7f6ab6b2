import Tempr.Ui.SessionRuns

/-!
# Composition

An input method shows what it composes in the text: each step replaces the text
that the last one marked, and the last of them is committed.  Nothing of what
was composed on the way stays.
-/

namespace Tempr.Ui

open Tempr.Editor Tempr.Support
open Tempr.Intel (CharTables)

theorem insertAt_one {b : Buffer} (revision : ℕ) {a m c : Rope}
    {s : Selection} (htext : b.rope = a ++ m ++ c)
    (hs : s.range = ⟨Rope.lenBytes a, Rope.lenBytes (a ++ m)⟩)
    (u : List Char) :
    ∃ made, (b.insertAt revision [s] u).2 =
        .ok ⟨made, [Selection.cursor (Rope.lenBytes (a ++ u))]⟩ ∧
      (b.insertAt revision [s] u).1.rope = a ++ u ++ c := by
  have hone : normalize [s] = [s] :=
    normalize_of_apart (List.pairwise_singleton _ _)
  have hstart : s.start = Rope.lenBytes a := congrArg ByteRange.start hs
  have hvalid : s.range.Valid b.rope := by
    rw [hs, Rope.lenBytes_append]
    exact .of_parts htext rfl rfl
  have hcursor : normalize (cursorsAfterReplacements (Rope.lenBytes u) 0 [s]) =
      [Selection.cursor (Rope.lenBytes (a ++ u))] := by
    simp only [cursorsAfterReplacements, hstart, add_zero, Int.toNat_natCast,
      ← Rope.lenBytes_append]
    exact normalize_of_apart (List.pairwise_singleton _ _)
  have hacceptable : Acceptable b.rope [⟨s.range, u⟩] :=
    acceptable_one.mpr hvalid
  have hrope := Buffer.editInner_rope hacceptable revision
    (some ⟨[s], [Selection.cursor (Rope.lenBytes (a ++ u))]⟩)
  have hisOk := (Buffer.editInner_isOk_iff b [⟨s.range, u⟩] revision
    (some ⟨[s], [Selection.cursor (Rope.lenBytes (a ++ u))]⟩)).mpr hacceptable
  have hsubstitute : substitute b.rope [⟨s.range, u⟩] = a ++ u ++ c := by
    rw [htext]
    exact substitute_parts (congrArg ByteRange.start hs)
      (congrArg ByteRange.stop hs)
  simp only [Buffer.insertAt, Buffer.applyWithSelections,
    Buffer.editWithSelections, hone, List.map_cons, List.map_nil, hcursor]
  cases hresult : (b.editInner revision [⟨s.range, u⟩]
      (some ⟨[s], [Selection.cursor (Rope.lenBytes (a ++ u))]⟩)).2 with
  | error err =>
      rw [hresult] at hisOk
      cases hisOk
  | ok made => exact ⟨made, rfl, hrope.trans hsubstitute⟩

namespace EditorView

/-- What is composed next replaces `m` between `a` and `c`: it is marked, or it
is what the one selection covers. -/
structure ComposesAt (a m c : Rope) (view : EditorView) : Prop where
  text_eq : view.text = a ++ m ++ c
  target : view.markedRange =
      some ⟨Rope.lenBytes a, Rope.lenBytes (a ++ m)⟩ ∨
    view.markedRange = none ∧ ∃ s, view.selections = [s] ∧
      s.range = ⟨Rope.lenBytes a, Rope.lenBytes (a ++ m)⟩

section Marks

variable [CharTables] (rules : TextRules) (service : Intelligence)

theorem afterEdit_markedRange (view : EditorView) (autoComplete : Bool) :
    (view.afterEdit rules service autoComplete).markedRange =
      view.markedRange := by
  rw [afterEdit]
  dsimp only [scheduleAnalysis, ask]
  split
  · rfl
  · split
    · rw [refilterCompletion]
      split
      · rfl
      · split <;> rfl
    · rw [openCompletion]
      split
      · rfl
      · dsimp only
        split <;> rfl

/-- What follows an edit does not touch the mark. -/
theorem shownEdit_markedRange (view : EditorView) (autoComplete : Bool)
    (made : Option ℕ) :
    (if made.isSome then
      (view.emit .changed).afterEdit rules service autoComplete
    else view).markedRange = view.markedRange := by
  cases made with
  | none => rfl
  | some id =>
      simp only [Option.isSome_some, if_true, afterEdit_markedRange]
      rfl

end Marks

section Steps

variable [CharTables] {view : EditorView} {a m c : Rope} (rules : TextRules)
  (service : Intelligence) (revision : ℕ)

omit [CharTables] in
theorem screen_shownEdit {buffer : Buffer} {sels : List Selection}
    {view' : EditorView} (h : view'.toEditorView =
      ({ view.toEditorView with
        buffer := buffer } : Editor.EditorView).setSelections sels) :
    view'.screen = ⟨buffer.rope, shown sels⟩ := by
  rw [screen, EditorView.text, h]
  rfl

theorem ComposesAt.replace (h : view.ComposesAt a m c) (u : List Char) :
    (view.replaceTextInRange rules service revision none u).screen =
        ⟨a ++ u ++ c, [Selection.cursor (Rope.lenBytes (a ++ u))]⟩ ∧
      (view.replaceTextInRange rules service revision none u).markedRange =
        none := by
  rw [replaceTextInRange]
  rcases h.target with hmarked | ⟨hmarked, s, hs, hrange⟩
  · have hordered : Rope.lenBytes a ≤ Rope.lenBytes (a ++ m) := by
      rw [Rope.lenBytes_append]
      omega
    have hrange : (⟨Rope.lenBytes a, Rope.lenBytes (a ++ m)⟩ :
        Selection).range = ⟨Rope.lenBytes a, Rope.lenBytes (a ++ m)⟩ := by
      simp only [Selection.range, Selection.start, Selection.stop,
        Nat.min_eq_left hordered, Nat.max_eq_right hordered]
    obtain ⟨made, hok, hrope⟩ :=
      insertAt_one revision h.text_eq hrange u
    simp only [hmarked, Option.map_none, Option.none_or, hok]
    refine ⟨?_, shownEdit_markedRange rules service _ true made⟩
    have hbase := congrArg Prod.fst
      (shownEdit_core rules service ({ view with
        buffer := (view.buffer.insertAt revision
          [⟨Rope.lenBytes a, Rope.lenBytes (a ++ m)⟩] u).1
        markedRange := none }.setSelections
          [Selection.cursor (Rope.lenBytes (a ++ u))]) true made)
    rw [screen_shownEdit hbase, hrope, shown_cursor]
  · obtain ⟨made, hok, hrope⟩ := insertAt_one revision h.text_eq hrange u
    simp only [hmarked, Option.map_none, Option.none_or]
    have hresult : view.buffer.insertAt revision view.selections u =
        ((view.buffer.insertAt revision [s] u).1, .ok ⟨made,
          [Selection.cursor (Rope.lenBytes (a ++ u))]⟩) := by
      rw [hs, ← hok]
    constructor
    · have hbase := applyWith_toEditorView rules service true
        { view with markedRange := none } (fun b s => b.insertAt revision s u)
        hresult
      rw [insertText, apply, screen_shownEdit hbase, hrope, shown_cursor]
    · rw [insertText, apply, applyWith]
      dsimp only
      rw [hresult]
      exact shownEdit_markedRange rules service _ true made

omit [CharTables] in
/-- What was composed last is marked, or there is one empty selection. -/
theorem ComposesAt.of_last {u : List Char} (htext : view.text = a ++ u ++ c)
    (hlast : view.primary = Selection.cursor (Rope.lenBytes (a ++ u)))
    (hone : u = [] → view.selections =
      [Selection.cursor (Rope.lenBytes (a ++ u))]) :
    ComposesAt a u c { view with
      markedRange :=
        if u ≠ [] ∧ Rope.lenBytes u ≤ view.primary.head then
          some ⟨view.primary.head - Rope.lenBytes u, view.primary.head⟩
        else none } := by
  refine ⟨htext, ?_⟩
  have hhead : view.primary.head = Rope.lenBytes a + Rope.lenBytes u := by
    rw [hlast, Rope.lenBytes_append]
    rfl
  by_cases hu : u = []
  · refine .inr ⟨by simp [hu], _, hone hu, ?_⟩
    simp [hu, Selection.range, Selection.start, Selection.stop,
      Selection.cursor]
  · refine .inl ?_
    dsimp only
    rw [if_pos ⟨hu, by omega⟩, hhead, Nat.add_sub_cancel,
      Rope.lenBytes_append]

theorem ComposesAt.mark (h : view.ComposesAt a m c) (u : List Char) :
    ComposesAt a u c
      (view.replaceAndMarkTextInRange rules service revision none u) := by
  obtain ⟨hscreen, -⟩ := h.replace rules service revision u
  obtain ⟨htext, hsels⟩ := Screen.mk.inj hscreen
  refine ComposesAt.of_last htext ?_ fun _ => hsels
  rw [primary, hsels]
  rfl

end Steps

/-! ## Runs of a composition -/

/-- A step of a composition, or a call that leaves the text, the selections and
the mark alone. -/
def Op.Composes : Op → Prop
  | .replaceAndMarkTextInRange none _ => True
  | .action key => key = .copy ∨ key = .hover ∨ key = .triggerCompletion ∨
      key = .completionNext ∨ key = .completionPrev ∨ key = .completionDismiss
  | .mouseMove _ _ | .mouseExit | .render _ _ | .nextFrame _ _
  | .onDiagnostics | .onSchemaRefreshed => True
  | _ => False

section Composing

variable [CharTables] {view : EditorView} {a m c : Rope} (rules : TextRules)

/-- Make calls one after another. -/
def performEach (calls : List Call) (view : EditorView) : EditorView :=
  calls.foldl (fun view call =>
    view.perform rules call.service call.revision call.op) view

omit [CharTables] in
theorem ComposesAt.congr {view' : EditorView} (h : view.ComposesAt a m c)
    (hcore : view'.toEditorView = view.toEditorView)
    (hmarked : view'.markedRange = view.markedRange) :
    view'.ComposesAt a m c := by
  refine ⟨?_, ?_⟩
  · rw [EditorView.text, hcore]
    exact h.text_eq
  · rw [hcore, hmarked]
    exact h.target

omit [CharTables] in
theorem ComposesAt.dismissPointerHover (h : view.ComposesAt a m c) :
    view.dismissPointerHover.ComposesAt a m c := by
  rw [EditorView.dismissPointerHover]
  dsimp only
  split <;> exact h.congr rfl rfl

theorem openCompletion_markedRange (service : Intelligence)
    (explicit : Bool) :
    (view.openCompletion rules service explicit).markedRange =
      view.markedRange := by
  rw [openCompletion]
  split
  · rfl
  · dsimp only
    split <;> rfl

/-- A call of a composition replaces what was composed, or keeps it. -/
theorem ComposesAt.perform (h : view.ComposesAt a m c) {call : Call}
    (hcall : call.op.Composes) :
    ∃ m', ComposesAt a m' c
      (view.perform rules call.service call.revision call.op) := by
  obtain ⟨service, revision, op⟩ := call
  cases op with
  | replaceAndMarkTextInRange range u =>
      cases range with
      | none => exact ⟨u, h.mark rules service revision u⟩
      | some range => exact absurd hcall id
  | action key =>
      refine ⟨m, ?_⟩
      rcases hcall with rfl | rfl | rfl | rfl | rfl | rfl
      · obtain ⟨asked, -, hcore⟩ := view.copy_core
        refine h.congr (congrArg Prod.fst hcore) ?_
        simp only [EditorView.perform, dispatch, copy]
        split
        · split <;> rfl
        · rfl
      · simp only [EditorView.perform, dispatch, showHover]
        split <;> exact h.congr rfl rfl
      · exact h.congr
          (congrArg Prod.fst (openCompletion_core service view rules true))
          (openCompletion_markedRange rules service true)
      · exact h.congr rfl rfl
      · exact h.congr rfl rfl
      · simp only [EditorView.perform, dispatch, completionDismiss]
        split <;> exact h.congr rfl rfl
  | mouseMove pressed position =>
      refine ⟨m, ?_⟩
      simp only [EditorView.perform, onMouseMove]
      split
      · exact h.dismissPointerHover
      · split
        · exact h
        · split
          · exact ComposesAt.dismissPointerHover (h.congr rfl rfl)
          · exact h.congr rfl rfl
  | mouseExit => exact ⟨m, h.dismissPointerHover⟩
  | render first count => exact ⟨m, h.congr rfl rfl⟩
  | nextFrame shown text =>
      refine ⟨m, ?_⟩
      simp only [EditorView.perform, nextFrame]
      split <;> exact h.congr rfl rfl
  | onDiagnostics =>
      refine ⟨m, ?_⟩
      simp only [EditorView.perform, onDiagnostics]
      split <;> exact h.congr rfl rfl
  | onSchemaRefreshed => exact ⟨m, h.congr rfl rfl⟩
  | _ => exact absurd hcall id

theorem ComposesAt.performEach (h : view.ComposesAt a m c)
    {calls : List Call} (hcalls : ∀ call ∈ calls, call.op.Composes) :
    ∃ m', ComposesAt a m' c (view.performEach rules calls) := by
  induction calls generalizing view m with
  | nil => exact ⟨m, h⟩
  | cons call calls ih =>
      rw [List.forall_mem_cons] at hcalls
      obtain ⟨m', hnext⟩ := h.perform rules hcalls.1
      exact ih hnext hcalls.2

variable {text : Rope}

omit [CharTables] in
/-- Without a mark a composition begins at the selection. -/
theorem InSession.composesAt (h : InSession text view)
    (hmarked : view.markedRange = none) :
    ∃ a m c, view.ComposesAt a m c := by
  obtain ⟨s, hsels⟩ := List.length_eq_one_iff.mp h.screen.length_eq
  change view.selections = [s] at hsels
  have hs : s.Valid view.text := h.screen.valid s (by simp [hsels])
  obtain ⟨p, m, c, hparts, hp, hm⟩ := hs.range.parts
  refine ⟨p, m, c, hparts, .inr ⟨hmarked, s, hsels, ?_⟩⟩
  rw [Rope.lenBytes_append, hm, hp]

omit [CharTables] in
/-- The input method is told where the text is that it composed. -/
theorem ComposesAt.markedTextRange {u : List Char}
    (h : view.ComposesAt a u c) (hu : u ≠ [])
    (hsels : view.selections = [Selection.cursor (Rope.lenBytes (a ++ u))]) :
    ∃ range, view.markedTextRange = some range ∧
      view.textForRange range = (range, some u) := by
  have hsome := h.target.resolve_right ?_
  case refine_1 =>
    rintro ⟨-, s, hs, hrange⟩
    obtain rfl : Selection.cursor (Rope.lenBytes (a ++ u)) = s :=
      List.singleton_inj.mp (hsels.symm.trans hs)
    have hstart := congrArg ByteRange.start hrange
    have hpos := Rope.lenBytes_pos hu
    simp only [Selection.range, Selection.start, Selection.cursor, min_self,
      Rope.lenBytes_append] at hstart
    omega
  refine ⟨_, congrArg (Option.map _) hsome, ?_⟩
  have hvalid : ByteRange.Valid view.text
      ⟨Rope.lenBytes a, Rope.lenBytes (a ++ u)⟩ := by
    rw [Rope.lenBytes_append]
    exact .of_parts h.text_eq rfl rfl
  rw [textForRange, Rope.rangeFromUtf16_rangeToUtf16 hvalid.startBoundary
    hvalid.stopBoundary, Buffer.slice_of_valid hvalid]
  have hslice := Rope.byteSlice_parts a u c
  rw [← Rope.lenBytes_append, ← h.text_eq] at hslice
  exact congrArg (fun t => (_, some t)) hslice

/-- A composition ends as if only its last text had been typed: what is
committed takes the place of all that was composed on the way, and what is
composed is where the input method is told. -/
theorem composition_exact
    (h : ((system rules text).restrict Fits).Reachable view)
    (hmarked : view.markedRange = none) {calls : List Call}
    (hcalls : ∀ call ∈ calls, call.op.Composes) (last : Call) :
    let composed := view.performEach rules (calls ++ [last])
    let typed := view.performEach rules [last]
    (∀ t, last.op = .replaceTextInRange none t →
      composed.screen = typed.screen ∧ composed.markedRange = none) ∧
    ∀ t, last.op = .replaceAndMarkTextInRange none t →
      composed.screen = typed.screen ∧
        (t ≠ [] → ∃ range, composed.markedTextRange = some range ∧
          composed.textForRange range = (range, some t)) := by
  intro composed typed
  obtain ⟨a, m, c, hbegin⟩ :=
    (inSession_of_reachable h).composesAt hmarked
  obtain ⟨m', hcomposing⟩ := hbegin.performEach rules hcalls
  have hcomposed : composed = (view.performEach rules calls).perform rules
      last.service last.revision last.op := by
    simp only [composed, performEach, List.foldl_append, List.foldl_cons,
      List.foldl_nil]
  have htyped : typed = view.perform rules last.service last.revision
    last.op := rfl
  rw [hcomposed, htyped]
  refine ⟨fun t hop => ?_, fun t hop => ?_⟩
  · rw [hop]
    have hdone := hcomposing.replace rules last.service last.revision t
    have hdirect := hbegin.replace rules last.service last.revision t
    exact ⟨hdone.1.trans hdirect.1.symm, hdone.2⟩
  · rw [hop]
    have hdone := hcomposing.replace rules last.service last.revision t
    have hdirect := hbegin.replace rules last.service last.revision t
    refine ⟨hdone.1.trans hdirect.1.symm, fun ht => ?_⟩
    exact (hcomposing.mark rules last.service last.revision t).markedTextRange
      ht (congrArg Screen.selections hdone.1)

end Composing

section Sample

local instance tablesComposition : CharTables := CharTables.ascii

/-- A step of the input method. -/
def markStep (u : String) : Call :=
  ⟨silentService, 2, .replaceAndMarkTextInRange none u.toList⟩

theorem markSteps_compose :
    ∀ call ∈ [markStep "k", markStep "ka"], call.op.Composes := by
  simp only [List.forall_mem_cons, List.not_mem_nil, false_implies,
    implies_true, and_true]
  exact ⟨trivial, trivial⟩

/-- "k" and "ka" are composed behind "ab" on the way to "か". -/
theorem composition_exact_ka :
    (abView.performEach plainRules ([markStep "k", markStep "ka"] ++
        [⟨silentService, 3, .replaceTextInRange none "か".toList⟩])).screen =
      ⟨"abか".toList, [Selection.cursor 5]⟩ :=
  (((composition_exact plainRules abView_reachable rfl markSteps_compose
    ⟨silentService, 3, .replaceTextInRange none "か".toList⟩).1
      "か".toList rfl).1).trans (by decide)

end Sample

end EditorView

end Tempr.Ui
