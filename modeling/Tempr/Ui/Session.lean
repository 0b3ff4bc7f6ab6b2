import Tempr.Editor.MoveOutcome
import Tempr.Ui.Screens

/-!
# Sessions

Whatever keys are pressed, whatever the input method and the mouse send and
whatever the intelligence service answers, in any order: the selections of the
view stay in its text, and undo and redo go back and forth among the screens
that were shown.
-/

namespace Tempr.Ui

open Tempr.Editor Tempr.Support
open Tempr.Intel (Analysis CharTables)

/-! ## Edits of the buffer -/

section Records

variable {b : Buffer} {revision : ℕ}

/-- An edit is rejected and changes nothing, finds nothing to do, or is made
with the selections before and after it. -/
inductive Records (revision : ℕ) (b : Buffer) (before : List Selection) :
    Buffer × Except EditError EditOutcome → Prop
  | rejected (err : EditError) : Records revision b before (b, .error err)
  | idle {sels : List Selection} (hplaced : Placed b.rope sels) :
      Records revision b before (b, .ok ⟨none, sels⟩)
  | made {edits : List Edit} {after : List Selection} {made : Option ℕ}
      (hok : (b.editWithSelections revision edits before after).2 = .ok made)
      (hbefore : Placed b.rope before)
      (hafter : Placed
        (b.editWithSelections revision edits before after).1.rope after) :
      Records revision b before
        ((b.editWithSelections revision edits before after).1,
          .ok ⟨made, after⟩)

/-- An edit says that it was made exactly when the buffer is another one. -/
theorem editInner_made_iff {b : Buffer} {edits : List Edit}
    {snapshot : Option SelectionSnapshot} {made : Option ℕ}
    (h : (b.editInner revision edits snapshot).2 = .ok made) :
    made.isSome = true ↔ (b.editInner revision edits snapshot).1 ≠ b := by
  have hisOk := (Buffer.editInner_isOk_iff b edits revision snapshot).mp
    (by rw [h]; rfl)
  rw [Buffer.editInner_of_acceptable hisOk] at h ⊢
  split at h
  case isTrue hnone =>
    rw [if_pos hnone]
    obtain rfl := Except.ok.inj h
    simp
  case isFalse hsome =>
    rw [if_neg hsome]
    obtain rfl := Except.ok.inj h
    simp only [Option.isSome_some, true_iff]
    intro heq
    have hlength := congrArg (fun b => b.history.undo.length) heq
    simp at hlength

theorem editInner_idle {b : Buffer} {edits : List Edit}
    {snapshot : Option SelectionSnapshot}
    (h : (b.editInner revision edits snapshot).2 = .ok none) :
    (b.editInner revision edits snapshot).1 = b := by
  simpa using editInner_made_iff h

theorem records_applyWithSelections {edits : List Edit}
    {before after : List Selection} (hbefore : Placed b.rope before)
    (hlength : after.length ≤ 1)
    (h : Succeeds (b.applyWithSelections revision edits before after)) :
    Records revision b before
      (b.applyWithSelections revision edits before after) := by
  obtain ⟨outcome, houtcome, hvalid⟩ := h
  rw [Buffer.applyWithSelections] at houtcome hvalid ⊢
  cases hresult : (b.editWithSelections revision edits before after).2 with
  | error err => simp [hresult, Except.map] at houtcome
  | ok made =>
      simp only [hresult, Except.map, Except.ok.injEq] at houtcome
      subst houtcome
      simp only [hresult, Except.map]
      exact .made hresult hbefore ⟨hvalid.valid, hlength⟩

variable {sels : List Selection}

theorem Placed.normalize {text : Rope} (h : Placed text sels) :
    Placed text (normalize sels) := by
  rwa [h.normalize_eq]

/-- At most one replacement leaves at most one cursor. -/
theorem cursorsAfterReplacements_single (n : ℕ) (h : sels.length ≤ 1) :
    (normalize (cursorsAfterReplacements n 0 sels)).length ≤ 1 := by
  have hlength : (cursorsAfterReplacements n 0 sels).length ≤ 1 := by
    rwa [cursorsAfterReplacements_length]
  rwa [normalize_of_length_le hlength]

theorem lineBlocks_single {rope : Rope} (h : sels.length ≤ 1) :
    (rope.lineBlocks sels).length ≤ 1 := by
  rw [Rope.lineBlocks, normalize_of_length_le h]
  cases sels with
  | nil => exact Nat.zero_le 1
  | cons s rest =>
      obtain rfl : rest = [] := by simpa using h
      exact le_rfl

theorem cursorsAfterDeletions_length (shift : ℕ)
    (blocks : List (ByteRange × Bool)) :
    (cursorsAfterDeletions shift blocks).length = blocks.length := by
  induction blocks generalizing shift with
  | nil => rfl
  | cons block blocks ih =>
      rw [cursorsAfterDeletions, List.length_cons, ih, List.length_cons]

theorem selectionsOnCopies_length (shift : ℕ)
    (blocks : List (ByteRange × List Char)) (sels : List Selection) :
    (selectionsOnCopies shift blocks sels).length = sels.length := by
  induction sels generalizing shift blocks with
  | nil => rfl
  | cons s sels ih =>
      rw [selectionsOnCopies, List.length_cons, ih, List.length_cons]

theorem records_insertAt (h : Placed b.rope sels) (text : List Char) :
    Records revision b (normalize sels) (b.insertAt revision sels text) :=
  records_applyWithSelections h.normalize
    (cursorsAfterReplacements_single _ h.normalize.length_le)
    (b.insertAt_succeeds revision h.valid text)

theorem records_deleteRanges {ranges before : List Selection}
    (hbefore : Placed b.rope before) (hranges : ranges.length ≤ 1)
    (h : Succeeds (b.deleteRanges revision ranges before)) :
    Records revision b before (b.deleteRanges revision ranges before) := by
  refine records_applyWithSelections hbefore ?_ h
  apply cursorsAfterReplacements_single
  rwa [normalize_of_length_le hranges]

theorem records_backspace (g : Graphemes) (h : Placed b.rope sels) :
    Records revision b (normalize sels) (b.backspace g revision sels) :=
  records_deleteRanges h.normalize
    (by rw [List.length_map]; exact h.normalize.length_le)
    (Buffer.backspace_succeeds g b revision h.valid)

theorem records_deleteForward (g : Graphemes) (h : Placed b.rope sels) :
    Records revision b (normalize sels) (b.deleteForward g revision sels) :=
  records_deleteRanges h.normalize
    (by rw [List.length_map]; exact h.normalize.length_le)
    (Buffer.deleteForward_succeeds g b revision h.valid)

theorem records_deleteLines (h : Placed b.rope sels) :
    Records revision b (normalize sels) (b.deleteLines revision sels) := by
  refine records_applyWithSelections h.normalize ?_
    (b.deleteLines_succeeds revision h.valid)
  rw [cursorsAfterDeletions_length]
  exact lineBlocks_single h.length_le

theorem records_duplicateLines (h : Placed b.rope sels) :
    Records revision b (normalize sels) (b.duplicateLines revision sels) := by
  have hsucceeds := b.duplicateLines_succeeds revision h.valid
  rw [Buffer.duplicateLines_eq (lineBlocks_spec h.valid).1] at hsucceeds ⊢
  refine records_applyWithSelections h.normalize ?_ hsucceeds
  rw [selectionsOnCopies_length]
  exact h.normalize.length_le

theorem records_moveLines (h : Placed b.rope sels)
    {direction : LineDirection} (hfits : MoveFits b.rope sels direction) :
    Records revision b (normalize sels)
      (b.moveLines revision sels direction) := by
  have hsucceeds :=
    (b.moveLines_succeeds_iff revision h.valid direction).mpr hfits
  rw [Buffer.moveLines] at hsucceeds ⊢
  cases hmoves : (b.rope.lineBlocks (normalize sels)).mapM
      (b.moveBlock direction) with
  | error err => exact .rejected err
  | ok moves =>
      simp only [hmoves] at hsucceeds ⊢
      split at hsucceeds
      case isTrue hnone =>
        rw [if_pos hnone]
        exact .idle h.normalize
      case isFalse hsome =>
        rw [if_neg hsome]
        refine records_applyWithSelections h.normalize ?_ hsucceeds
        rw [List.length_map]
        exact h.normalize.length_le

/-- Text at one range: the range is that of a selection in the text, or the
edit is rejected. -/
theorem records_insertAt_range (s : Selection) (text : List Char) :
    Records revision b [s] (b.insertAt revision [s] text) := by
  have hone : normalize [s] = [s] :=
    normalize_of_apart (List.pairwise_singleton _ _)
  by_cases hvalid : s.Valid b.rope
  · have hrecords : Records revision b (normalize [s])
        (b.insertAt revision [s] text) :=
      records_insertAt ⟨by simpa using hvalid, le_rfl⟩ text
    rwa [hone] at hrecords
  · have hnot : ¬Acceptable b.rope [⟨s.range, text⟩] := by
      intro hacceptable
      have hrange := hacceptable.valid ⟨s.range, text⟩ (by simp)
      apply hvalid
      apply Selection.Valid.of_ends
      · rcases min_choice s.anchor s.head with hmin | hmin
        · exact hmin ▸ hrange.startBoundary
        · have hmax : max s.anchor s.head = s.anchor := by omega
          exact hmax ▸ hrange.stopBoundary
      · rcases min_choice s.anchor s.head with hmin | hmin
        · have hmax : max s.anchor s.head = s.head := by omega
          exact hmax ▸ hrange.stopBoundary
        · exact hmin ▸ hrange.startBoundary
    obtain ⟨err, herr⟩ := Buffer.editInner_of_not_acceptable hnot revision
      (some ⟨[s], normalize (cursorsAfterReplacements
        (Rope.lenBytes text) 0 [s])⟩)
    simp only [Buffer.insertAt, Buffer.applyWithSelections,
      Buffer.editWithSelections, hone, List.map_cons, List.map_nil, herr]
    exact .rejected err

end Records

/-! ## One call -/

section Plain

variable {revision : ℕ}

theorem acceptable_one {rope : Rope} {e : Edit} :
    Acceptable rope [e] ↔ e.range.Valid rope :=
  ⟨fun h => h.valid e (by simp), fun h =>
    ⟨by simpa using h, List.pairwise_singleton _ _⟩⟩

/-- One replacement at a valid range is made. -/
theorem plainEdit_of_valid {b : Buffer} (revision : ℕ) {e : Edit}
    (h : e.range.Valid b.rope) :
    ∃ made, (b.edit revision [e]).2 = .ok made ∧
      (b.edit revision [e]).1.rope = substitute b.rope [e] := by
  have hacceptable := acceptable_one.mpr h
  have hisOk :=
    (Buffer.editInner_isOk_iff b [e] revision none).mpr hacceptable
  cases hresult : (b.edit revision [e]).2 with
  | error err =>
      rw [Buffer.edit] at hresult
      rw [hresult] at hisOk
      cases hisOk
  | ok made =>
      exact ⟨made, rfl, Buffer.editInner_rope hacceptable revision none⟩

theorem plainEdit_cases {b : Buffer} (revision : ℕ) (e : Edit) :
    (∃ err, b.edit revision [e] = (b, .error err)) ∨
      ∃ made, (b.edit revision [e]).2 = .ok made ∧ e.range.Valid b.rope ∧
        (b.edit revision [e]).1.rope = substitute b.rope [e] := by
  by_cases hvalid : e.range.Valid b.rope
  · obtain ⟨made, hok, hrope⟩ := plainEdit_of_valid revision hvalid
    exact .inr ⟨made, hok, hvalid, hrope⟩
  · exact .inl (Buffer.editInner_of_not_acceptable
      (mt acceptable_one.mp hvalid) revision none)

theorem substitute_parts {a m b : Rope} {e : Edit}
    (hstart : e.range.start = Rope.lenBytes a)
    (hstop : e.range.stop = Rope.lenBytes (a ++ m)) :
    substitute (a ++ m ++ b) [e] = a ++ e.text ++ b := by
  apply substitute_of_splices
  refine .cons (r := e.replacement) ?_ ?_ (.nil e.range.stop b)
  · rw [Nat.zero_add]
    exact hstart.symm
  · rw [Rope.lenBytes_append] at hstop
    change e.range.start + Rope.lenBytes m = e.range.stop
    omega

/-- The end of the new text is a character boundary. -/
theorem isCharBoundary_substitute {rope : Rope} {e : Edit}
    (h : e.range.Valid rope) :
    (substitute rope [e]).IsCharBoundary
      (e.range.start + Rope.lenBytes e.text) := by
  obtain ⟨a, m, b, rfl, hstart, hstop⟩ := h.parts
  rw [substitute_parts hstart.symm (by rw [Rope.lenBytes_append, hstop]),
    ← hstart, ← Rope.lenBytes_append]
  exact ⟨a ++ e.text, b, rfl, rfl⟩

end Plain

namespace EditorView

/-- What the popup and the hover card do not touch. -/
def core (view : EditorView) :
    Editor.EditorView × Option (ℕ × Analysis) × List Effect :=
  (view.toEditorView, view.analysis, view.effects)

/-- The view announces a change of its buffer, and nothing else, as a change,
and then has the new text analysed. -/
def Announces (view view' : EditorView) : Prop :=
  ∃ more, view'.effects = view.effects ++ more ∧
    (.emit .changed ∈ more ↔ view'.buffer ≠ view.buffer) ∧
    (view'.buffer ≠ view.buffer →
      .scheduleAnalysis view'.buffer.revision ∈ more)

/-- The effects of an edit that was made, or found nothing to do. -/
def announced (effects : List Effect) (revision : ℕ) :
    Option ℕ → List Effect
  | some _ => effects ++ [.emit .changed] ++ [.scheduleAnalysis revision]
  | none => effects

/-- An analysis that the view holds after a call is one that it held, or one of
the text that the call left as it was. -/
def KeepsAnalysis (view view' : EditorView) : Prop :=
  ∀ p ∈ view'.analysis, p ∈ view.analysis ∨
    (p.1 = view.buffer.revision ∧ view'.buffer = view.buffer ∧
      ∀ d ∈ p.2.diagnostics, view.text.IsCharBoundary d.range.start)

/-- What one call of the view does. -/
structure Does (revision : ℕ) (view view' : EditorView) : Prop where
  acts : Acts revision view.toEditorView view'.toEditorView
  analysis : view.KeepsAnalysis view'
  announces : view.Announces view'

section Frame

variable (service : Intelligence) (view : EditorView)

@[simp] theorem refilterCompletion_core :
    (view.refilterCompletion service).core = view.core := by
  rw [refilterCompletion]
  split
  · rfl
  · split <;> rfl

@[simp] theorem dismissPointerHover_core :
    view.dismissPointerHover.core = view.core := by
  rw [dismissPointerHover]
  dsimp only
  split <;> rfl

/-- Copying only asks for the clipboard. -/
theorem copy_core :
    ∃ asked : List Effect, .emit .changed ∉ asked ∧ view.copy.core =
      (view.toEditorView, view.analysis, view.effects ++ asked) := by
  have hnone : view.core =
      (view.toEditorView, view.analysis, view.effects ++ []) := by
    rw [List.append_nil]
    rfl
  rw [copy]
  split
  · split
    · exact ⟨[], by simp, hnone⟩
    · exact ⟨[.writeToClipboard _], by simp, rfl⟩
  · exact ⟨[], by simp, hnone⟩

@[simp] theorem openCompletion_core [CharTables] (rules : TextRules)
    (explicit : Bool) :
    (view.openCompletion rules service explicit).core = view.core := by
  rw [openCompletion]
  split
  · rfl
  · dsimp only
    split <;> rfl

theorem scheduleAnalysis_core_congr {view view' : EditorView}
    (h : view.core = view'.core) :
    view.scheduleAnalysis.core = view'.scheduleAnalysis.core := by
  simp only [core, Prod.mk.injEq] at h
  simp only [core, scheduleAnalysis, ask, h]

theorem afterEdit_core [CharTables] (rules : TextRules)
    (autoComplete : Bool) :
    (view.afterEdit rules service autoComplete).core =
      view.scheduleAnalysis.core := by
  rw [afterEdit]
  apply scheduleAnalysis_core_congr
  split
  · rfl
  · split
    · rw [refilterCompletion_core]
      rfl
    · rw [openCompletion_core]
      rfl

end Frame

namespace Does

variable {revision : ℕ} {view view' : EditorView}

theorem congr {view'' : EditorView} (h : Does revision view view')
    (hcore : view''.core = view'.core) : Does revision view view'' := by
  simp only [core, Prod.mk.injEq] at hcore
  obtain ⟨hbase, hanalysis, heffects⟩ := hcore
  refine ⟨hbase ▸ h.acts, ?_, ?_⟩
  · simpa only [KeepsAnalysis, hanalysis, hbase] using h.analysis
  · simpa only [Announces, heffects, hbase] using h.announces

/-- A call that first asks for something, and keeps the rest. -/
theorem of_asked {view₁ : EditorView} (h : Does revision view₁ view')
    (asked : List Effect) (hasked : .emit .changed ∉ asked)
    (hcore : view₁.core =
      (view.toEditorView, view.analysis, view.effects ++ asked)) :
    Does revision view view' := by
  simp only [core, Prod.mk.injEq] at hcore
  obtain ⟨hbase, hanalysis, heffects⟩ := hcore
  obtain ⟨more, hmore, hchanged, hscheduled⟩ := h.announces
  refine ⟨hbase ▸ h.acts, ?_, ⟨asked ++ more, ?_, ?_, ?_⟩⟩
  · simpa only [KeepsAnalysis, text, hanalysis, hbase] using h.analysis
  · rw [hmore, heffects, List.append_assoc]
  · rw [← hbase, ← hchanged, List.mem_append, or_iff_right hasked]
  · rw [← hbase]
    exact fun hne => List.mem_append_right _ (hscheduled hne)

/-- A call that asks for something and keeps the rest. -/
theorem asks (more : List Effect) (hmore : .emit .changed ∉ more)
    (hcore : view'.core =
      (view.toEditorView, view.analysis, view.effects ++ more)) :
    Does revision view view' := by
  simp only [core, Prod.mk.injEq] at hcore
  obtain ⟨hbase, hanalysis, heffects⟩ := hcore
  refine ⟨hbase ▸ .keep, fun p hp => .inl (hanalysis ▸ hp),
    ⟨more, heffects, ?_, ?_⟩⟩
  · simp [hmore, hbase]
  · simp [hbase]

theorem keep (hcore : view'.core = view.core) : Does revision view view' :=
  asks [] (by simp) (by rw [hcore, List.append_nil]; rfl)

/-- A call that changes the selections, and asks for something. -/
theorem select (sels : List Selection) (more : List Effect)
    (hmore : .emit .changed ∉ more) (hplaced : Placed view.text sels)
    (hcore : view'.core = (view.toEditorView.setSelections sels,
      view.analysis, view.effects ++ more)) :
    Does revision view view' := by
  simp only [core, Prod.mk.injEq] at hcore
  obtain ⟨hbase, hanalysis, heffects⟩ := hcore
  refine ⟨hbase ▸ .select hplaced, fun p hp => .inl (hanalysis ▸ hp),
    ⟨more, heffects, ?_, ?_⟩⟩
  · simp [hmore, hbase]
  · simp [hbase]

/-- A call whose edit was made or found nothing to do: it announces the edit
when there was one. -/
theorem edit (made : Option ℕ) {base : Editor.EditorView}
    (hacts : Acts revision view.toEditorView base)
    (hmade : made.isSome = true ↔ base.buffer ≠ view.buffer)
    (hcore : view'.core = (base, view.analysis,
      announced view.effects base.buffer.revision made)) :
    Does revision view view' := by
  simp only [core, Prod.mk.injEq] at hcore
  obtain ⟨hbase, hanalysis, heffects⟩ := hcore
  refine ⟨hbase ▸ hacts, fun p hp => .inl (hanalysis ▸ hp), ?_⟩
  cases made with
  | none =>
      have hsame : base.buffer = view.buffer := by simpa using hmade
      refine ⟨[], by simpa [announced] using heffects, ?_, ?_⟩
      · simp [hbase, hsame]
      · simp [hbase, hsame]
  | some id =>
      have hne : base.buffer ≠ view.buffer := by simpa using hmade
      rw [announced, List.append_assoc] at heffects
      refine ⟨_, heffects, ?_, ?_⟩
      · simp [hbase, hne]
      · simp [hbase]

end Does

/-! ## What a call relies on -/

/-- Moved lines take their selections to character boundaries; the line under
the mouse was painted from the present text; and the analysis that is stored for
the text marks places in it. -/
def Fits (view : EditorView) (call : Call) : Prop :=
  match call.op with
  | .action .moveLineUp => MoveFits view.text view.selections .up
  | .action .moveLineDown => MoveFits view.text view.selections .down
  | .mouseDown _ position =>
      ∀ layout, view.lineLayouts.lookup position.1 = some layout →
        layout = ⟨view.text.lineStartOf position.1,
          (view.text.line position.1).getD []⟩ ∧
        Rope.IsCharBoundary layout.shaped position.2
  | .onDiagnostics =>
      ∀ analysis, call.service.analysis view.buffer.revision =
        some analysis →
          ∀ d ∈ analysis.diagnostics, view.text.IsCharBoundary d.range.start
  | _ => True

theorem isCharBoundary_inLine (rope : Rope) (k : ℕ) {i : ℕ}
    (h : Rope.IsCharBoundary ((rope.line k).getD []) i) :
    rope.IsCharBoundary (rope.lineStartOf k + i) := by
  by_cases hk : k < rope.lenLines
  · obtain ⟨p, rest, rfl, hp, rfl⟩ := Rope.exists_lineStart_of_lt hk
    obtain ⟨l, t, rfl, hl, ht⟩ := Rope.exists_lineTail rest
    have hstart := Rope.lineStart_parts hp (q := []) (by simp) l t
    rw [List.append_nil, List.nil_append] at hstart
    have hpoint := Rope.pointForOffset_line_parts hp (q := []) (by simp) l t
    rw [List.append_nil, List.nil_append] at hpoint
    rw [Rope.lineStart, hpoint] at hstart
    rw [← List.append_assoc] at h ⊢
    rw [Rope.line_parts hp hl ht, Option.getD_some] at h
    obtain ⟨rest, hcut, -⟩ := Rope.exists_content_cut p l t
    rw [hstart, hcut]
    exact (h.append_left p).append_right _
  · rw [Rope.line, if_pos (by omega), Option.getD_none] at h
    obtain rfl : i = 0 := by simpa using h.le_span
    exact Rope.offsetForPoint_isBoundary rope _

/-- A view in a session on a text: its screens are sound, and the analysis it
holds was made for a text that it had, and marks places in the present one. -/
structure InSession (text : Rope) (view : EditorView) : Prop where
  sound : Sound text view.toEditorView
  analysis_le : ∀ p ∈ view.analysis, p.1 ≤ view.buffer.revision
  analysis_fits : ∀ analysis, view.currentAnalysis = some analysis →
    ∀ d ∈ analysis.diagnostics, view.text.IsCharBoundary d.range.start

namespace InSession

variable {text : Rope} {view : EditorView}

theorem screen (h : InSession text view) :
    Screen.WellFormed ⟨view.text, view.selections⟩ :=
  h.sound.screens.now

theorem primary_mem (h : InSession text view) :
    view.primary ∈ view.selections := by
  obtain ⟨s, hs⟩ := List.length_eq_one_iff.mp h.screen.length_eq
  change view.selections = [s] at hs
  simp [primary, hs]

theorem primary_valid (h : InSession text view) :
    view.primary.Valid view.text :=
  h.screen.valid _ h.primary_mem

end InSession

/-! ## Motions -/

section Motions

variable {text : Rope} {view : EditorView} {revision : ℕ}

theorem moveOne_valid {rope : Rope} {s : Selection} (hs : s.Valid rope)
    (extend collapseToEdge : Bool) {f : ℕ → ℕ}
    (hf : rope.IsCharBoundary (f s.head)) :
    (Editor.EditorView.moveOne extend collapseToEdge f s).Valid rope := by
  have htarget : rope.IsCharBoundary
      (Editor.EditorView.moveOne extend collapseToEdge f s).head := by
    simp only [Editor.EditorView.moveOne, Selection.withHead]
    split
    · split
      · exact hs.start_boundary
      · exact hs.stop_boundary
    · exact hf
  refine .of_ends ?_ htarget
  cases extend with
  | true => exact hs.anchor_boundary
  | false => exact htarget

theorem moveEach_does (h : InSession text view) (extend collapseToEdge : Bool)
    {f : ℕ → ℕ} (hf : ∀ o, view.text.IsCharBoundary o →
      view.text.IsCharBoundary (f o)) :
    Does revision view (view.moveEach extend collapseToEdge f) := by
  refine .select (view.selections.map _) [] (by simp) ⟨?_, ?_⟩
    (by rw [List.append_nil]; rfl)
  case refine_2 =>
    rw [List.length_map]
    exact h.screen.length_eq.le
  simp only [List.forall_mem_map]
  intro s hs
  have hvalid := h.screen.valid s hs
  exact moveOne_valid hvalid extend collapseToEdge
    (hf _ hvalid.head_boundary)

theorem moveVertical_does (h : InSession text view) (delta : ℤ)
    (extend : Bool) :
    Does revision view (view.moveVertical delta extend) := by
  refine .select (List.map _ (view.selections.map _)) [] (by simp) ⟨?_, ?_⟩
    (by rw [List.append_nil]; rfl)
  case refine_2 =>
    rw [List.length_map, List.length_map]
    exact h.screen.length_eq.le
  simp only [List.forall_mem_map]
  intro s hs
  have hvalid := h.screen.valid s hs
  have htarget := Rope.moveVertically_isBoundary view.text s.head delta
    view.goalColumn
  refine .of_ends ?_ htarget
  cases extend with
  | true => exact hvalid.anchor_boundary
  | false => exact htarget

theorem cursor_does {o : ℕ} (h : view.text.IsCharBoundary o)
    {view' : EditorView} (hcore : view'.core =
      (view.toEditorView.setSelections [Selection.cursor o], view.analysis,
        view.effects)) : Does revision view view' :=
  .select _ [] (by simp) (placed_cursor h) (by rw [hcore, List.append_nil])

end Motions

/-! ## Edits -/

section Edits

variable {text : Rope} {view : EditorView} {revision : ℕ}

/-- The outcome of an edit, shown in the view. -/
theorem Does.of_records {before : List Selection}
    {result : Buffer × Except EditError EditOutcome}
    (h : Records revision view.buffer before result) {view' : EditorView}
    (hok : ∀ made sels, result.2 = .ok ⟨made, sels⟩ →
      view'.core = (({ view.toEditorView with
          buffer := result.1 } : Editor.EditorView).setSelections sels,
        view.analysis, announced view.effects result.1.revision made))
    (herr : ∀ err, result = (view.buffer, .error err) → ∃ text,
      view'.core = (view.toEditorView, view.analysis,
        view.effects ++ [.emit (.notice text)])) :
    Does revision view view' := by
  cases h with
  | rejected err =>
      obtain ⟨text, hcore⟩ := herr err rfl
      exact .asks _ (by simp) hcore
  | idle hplaced =>
      refine .select _ [] (by simp) hplaced ?_
      rw [hok _ _ rfl, List.append_nil]
      rfl
  | made hmade hbefore hafter =>
      exact .edit _ (.edit hmade hbefore hafter) (editInner_made_iff hmade)
        (hok _ _ rfl)

/-- What follows an edit, when it changed the text. -/
theorem shownEdit_core [CharTables] (rules : TextRules)
    (service : Intelligence) (view : EditorView) (autoComplete : Bool)
    (made : Option ℕ) :
    (if made.isSome then
      (view.emit .changed).afterEdit rules service autoComplete
    else view).core =
      (view.toEditorView, view.analysis,
        announced view.effects view.buffer.revision made) := by
  cases made with
  | none => rfl
  | some id =>
      simp only [Option.isSome_some, if_true, afterEdit_core]
      rfl

theorem applyWith_does [CharTables] (rules : TextRules)
    (service : Intelligence) (autoComplete : Bool) {before : List Selection}
    (op : Buffer → List Selection → Buffer × Except EditError EditOutcome)
    (h : Records revision view.buffer before
      (op view.buffer view.selections)) :
    Does revision view (view.applyWith rules service autoComplete op) := by
  rw [applyWith]
  rcases hresult : op view.buffer view.selections with ⟨buffer, result⟩
  rw [hresult] at h
  apply Does.of_records h
  · rintro made sels rfl
    exact shownEdit_core rules service _ autoComplete made
  · rintro err hrejected
    obtain ⟨rfl, rfl⟩ := Prod.mk.inj hrejected
    exact ⟨_, rfl⟩

theorem insertText_does [CharTables] (h : InSession text view)
    (rules : TextRules) (service : Intelligence) (newText : List Char) :
    Does revision view (view.insertText rules service revision newText) :=
  applyWith_does rules service true
        (fun b s => b.insertAt revision s newText)
    (records_insertAt (b := view.buffer) h.screen.placed newText)

theorem cut_does [CharTables] (h : InSession text view) (rules : TextRules)
    (service : Intelligence) :
    Does revision view (view.cut rules service revision) := by
  obtain ⟨asked, hasked, hcore⟩ := view.copy_core
  have hbase : view.copy.toEditorView = view.toEditorView :=
    congrArg Prod.fst hcore
  have hrecords : Records revision view.copy.buffer
      (normalize view.selections)
      (view.copy.buffer.insertAt revision view.copy.selections []) := by
    rw [hbase]
    exact records_insertAt (b := view.buffer) h.screen.placed []
  rw [cut]
  split
  · exact (applyWith_does rules service false
      (fun b s => b.insertAt revision s []) hrecords).of_asked asked hasked
        hcore
  · exact .asks asked hasked hcore

theorem replaceTextInRange_does [CharTables] (h : InSession text view)
    (rules : TextRules) (service : Intelligence) (range : Option ByteRange)
    (newText : List Char) :
    Does revision view (view.replaceTextInRange rules service revision range
      newText) := by
  rw [replaceTextInRange]
  dsimp only
  split
  · rename_i r _
    have hrecords : Records revision view.buffer [⟨r.start, r.stop⟩]
        (view.buffer.insertAt revision [⟨r.start, r.stop⟩] newText) :=
      records_insertAt_range _ newText
    rcases hresult : view.buffer.insertAt revision [⟨r.start, r.stop⟩]
      newText with ⟨buffer, result⟩
    rw [hresult] at hrecords
    apply Does.of_records hrecords
    · rintro made sels rfl
      exact shownEdit_core rules service _ true made
    · rintro err hrejected
      obtain ⟨rfl, rfl⟩ := Prod.mk.inj hrejected
      exact ⟨_, rfl⟩
  · have hmarked : InSession text { view with markedRange := none } :=
      ⟨h.sound, h.analysis_le, h.analysis_fits⟩
    exact (insertText_does hmarked rules service newText).of_asked
      [] (by simp) (by rw [List.append_nil]; rfl)

theorem undo_does : Does revision view (view.undo revision) := by
  have hbuffer := Buffer.undoWithSelections_fst view.buffer revision
  rw [undo]
  rcases hresult : view.buffer.undoWithSelections revision with
    ⟨buffer, _ | ⟨id, sels⟩⟩
  · exact .keep rfl
  · rw [hresult] at hbuffer
    obtain rfl : buffer = _ := hbuffer
    have hne : (view.buffer.undo revision).1 ≠ view.buffer := by
      cases hstack : view.buffer.history.undo with
      | nil =>
          rw [Buffer.undoWithSelections, Buffer.undo_of_nil hstack] at hresult
          cases hresult
      | cons tx rest =>
          intro heq
          have hlength := congrArg (fun b => b.history.undo.length) heq
          simp [Buffer.undo_of_cons hstack, hstack] at hlength
    exact .edit (some id) (.undo (congrArg Prod.snd hresult))
      (by simpa using hne) rfl

theorem redo_does : Does revision view (view.redo revision) := by
  have hbuffer := Buffer.redoWithSelections_fst view.buffer revision
  rw [redo]
  rcases hresult : view.buffer.redoWithSelections revision with
    ⟨buffer, _ | ⟨id, sels⟩⟩
  · exact .keep rfl
  · rw [hresult] at hbuffer
    obtain rfl : buffer = _ := hbuffer
    have hne : (view.buffer.redo revision).1 ≠ view.buffer := by
      cases hstack : view.buffer.history.redo with
      | nil =>
          rw [Buffer.redoWithSelections, Buffer.redo_of_nil hstack] at hresult
          cases hresult
      | cons tx rest =>
          intro heq
          have hlength := congrArg (fun b => b.history.redo.length) heq
          simp [Buffer.redo_of_cons hstack, hstack] at hlength
    exact .edit (some id) (.redo (congrArg Prod.snd hresult))
      (by simpa using hne) rfl

theorem setText_does (newText : List Char) :
    Does revision view (view.setText revision newText) := by
  rw [setText]
  rcases plainEdit_cases (b := view.buffer) revision
    ⟨⟨0, view.buffer.len⟩, newText⟩ with
    ⟨err, herr⟩ | ⟨made, hok, -, -⟩
  · simp only [herr]
    exact cursor_does (isBoundary_span _) rfl
  · refine .edit made (.plainEdit hok (isBoundary_span _))
      (editInner_made_iff hok) ?_
    dsimp only
    rw [hok]
    cases made with
    | none => rfl
    | some id => rfl

theorem completionAccept_does :
    Does revision view (view.completionAccept revision) := by
  rw [completionAccept]
  split
  · exact .keep rfl
  · split
    · exact .keep rfl
    · rename_i item hitem
      split
      · exact .keep rfl
      · rcases plainEdit_cases (b := view.buffer) revision
          ⟨item.replace, item.insert⟩ with
          ⟨err, herr⟩ | ⟨made, hok, hvalid, hrope⟩
        · simp only [acceptEdit, closeCompletion, herr]
          exact .asks [.emit (.notice _)] (by simp) rfl
        · have hcursor := isCharBoundary_substitute hvalid
          rw [← hrope] at hcursor
          refine .edit made (.plainEdit hok hcursor) (editInner_made_iff hok) ?_
          simp only [acceptEdit, closeCompletion, hok]
          cases made with
          | none => rfl
          | some id => rfl

end Edits

/-! ## All calls -/

section Calls

variable {text : Rope} {view : EditorView} {revision : ℕ}

theorem runAll_does : Does revision view view.runAll := by
  rw [runAll]
  split
  · exact .keep rfl
  · exact .asks [.emit (.run _)] (by simp) rfl

theorem runStatementUnderCursor_does (rules : TextRules) :
    Does revision view (view.runStatementUnderCursor rules) := by
  rw [runStatementUnderCursor]
  split
  · split
    · exact .asks [.emit (.run _)] (by simp) rfl
    · exact .keep rfl
  · split
    · split
      · exact .asks [.emit (.notice _)] (by simp) rfl
      · split
        · exact .asks [.emit (.run _)] (by simp) rfl
        · exact .keep rfl
    · exact .asks [.emit (.notice _)] (by simp) rfl

theorem showHover_does (service : Intelligence) :
    Does revision view (view.showHover service) := by
  rw [showHover]
  split
  · exact .asks [.emit (.notice _)] (by simp) rfl
  · exact .keep rfl

theorem diagnosticTarget_mem {analysis : Analysis} {o start : ℕ}
    {forward : Bool} {message : List Char}
    (h : Intel.diagnosticTarget analysis o forward = some (start, message)) :
    ∃ d ∈ analysis.diagnostics, d.range.start = start := by
  cases forward with
  | true =>
      simp only [Intel.diagnosticTarget, if_true, Option.bind_eq_bind,
        Option.bind_eq_some_iff, Option.some.injEq, Prod.mk.injEq] at h
      obtain ⟨d, hd, rfl, -⟩ := h
      rcases Option.or_eq_some_iff.mp hd with hfind | ⟨-, hhead⟩
      · exact ⟨d, List.mem_of_find?_eq_some hfind, rfl⟩
      · exact ⟨d, List.mem_of_mem_head? hhead, rfl⟩
  | false =>
      simp only [Intel.diagnosticTarget, Bool.false_eq_true, if_false,
        Option.bind_eq_bind, Option.bind_eq_some_iff, Option.some.injEq,
        Prod.mk.injEq] at h
      obtain ⟨d, hd, rfl, -⟩ := h
      rcases Option.or_eq_some_iff.mp hd with hprevious | ⟨-, hlast⟩
      · exact ⟨d, (Intel.Analysis.previousDiagnostic_eq_some hprevious).1, rfl⟩
      · exact ⟨d, List.mem_of_mem_getLast? hlast, rfl⟩

theorem moveToDiagnostic_does (h : InSession text view) (forward : Bool) :
    Does revision view (view.moveToDiagnostic forward) := by
  rw [moveToDiagnostic]
  split
  · exact .asks [.emit (.notice _)] (by simp) rfl
  · rename_i start message htarget
    obtain ⟨analysis, hanalysis, htarget⟩ := Option.bind_eq_some_iff.mp htarget
    obtain ⟨d, hd, rfl⟩ := diagnosticTarget_mem htarget
    exact .select _ [.onNextFrame _ _] (by simp)
      (placed_cursor (h.analysis_fits analysis hanalysis d hd)) rfl

theorem onMouseDown_does (h : InSession text view) {shift : Bool}
    {position : ℕ × ℕ}
    (hfits : ∀ o, view.offsetForPosition position = some o →
      view.text.IsCharBoundary o) :
    Does revision view (view.onMouseDown shift position) := by
  rw [onMouseDown]
  split
  · rename_i o ho
    have hboundary := hfits o ho
    cases shift with
    | false => exact cursor_does hboundary rfl
    | true =>
        have hvalid : (view.primary.withHead o true).Valid view.text :=
          .of_ends h.primary_valid.anchor_boundary hboundary
        refine .select _ [] (by simp)
          ⟨List.forall_mem_singleton.mpr hvalid, le_rfl⟩ ?_
        rw [List.append_nil]
        rfl
  · exact .keep rfl

theorem onMouseMove_does (service : Intelligence) (pressed : Bool)
    (position : ℕ × ℕ) :
    Does revision view (view.onMouseMove service pressed position) := by
  rw [onMouseMove]
  split
  · exact .keep (dismissPointerHover_core view)
  · dsimp only
    split
    · exact .keep rfl
    · split
      · exact .keep (dismissPointerHover_core _)
      · exact .keep rfl

theorem onDiagnostics_does (service : Intelligence)
    (hfits : ∀ analysis, service.analysis view.buffer.revision =
      some analysis →
        ∀ d ∈ analysis.diagnostics, view.text.IsCharBoundary d.range.start) :
    Does revision view (view.onDiagnostics service) := by
  rw [onDiagnostics]
  split
  · rename_i analysis hanalysis
    refine ⟨.keep, ?_, ⟨[], by simp, by simp, by simp⟩⟩
    rintro p ⟨⟩
    exact .inr ⟨rfl, rfl, hfits analysis hanalysis⟩
  · exact .keep rfl

theorem dispatch_does [CharTables] (h : InSession text view)
    (rules : TextRules) (service : Intelligence) (action : Action)
    (hfits : view.Fits ⟨service, revision, .action action⟩) :
    Does revision view (view.dispatch rules service revision action) := by
  have hplaced := h.screen.placed
  cases action with
  | moveLeft | selectLeft =>
      exact moveEach_does h _ _ fun o =>
        Rope.prevGraphemeBoundary_isBoundary rules.graphemes
  | moveRight | selectRight =>
      exact moveEach_does h _ _ fun o =>
        Rope.nextGraphemeBoundary_isBoundary rules.graphemes
  | wordLeft | selectWordLeft =>
      exact moveEach_does h _ _ fun o =>
        Rope.prevWordBoundary_isBoundary rules.graphemes rules.words
  | wordRight | selectWordRight =>
      exact moveEach_does h _ _ fun o =>
        Rope.nextWordBoundary_isBoundary rules.graphemes rules.words
  | lineStart | selectLineStart =>
      exact moveEach_does h _ _ fun o _ => Rope.lineStart_isBoundary _ o
  | lineEnd | selectLineEnd =>
      exact moveEach_does h _ _ fun o _ => Rope.lineEnd_isBoundary _ o
  | moveUp | moveDown | selectUp | selectDown =>
      exact moveVertical_does h _ _
  | documentStart => exact cursor_does (isBoundary_zero _) rfl
  | documentEnd => exact cursor_does (isBoundary_span _) rfl
  | selectAll =>
      have hall : Selection.Valid view.text ⟨0, view.buffer.len⟩ :=
        .of_ends (isBoundary_zero _) (isBoundary_span _)
      refine .select _ [] (by simp)
        ⟨List.forall_mem_singleton.mpr hall, le_rfl⟩ ?_
      rw [List.append_nil]
      rfl
  | backspace =>
      exact applyWith_does rules service true
        (fun b s => b.backspace rules.graphemes revision s)
        (records_backspace (b := view.buffer) rules.graphemes hplaced)
  | delete =>
      exact applyWith_does rules service true
        (fun b s => b.deleteForward rules.graphemes revision s)
        (records_deleteForward (b := view.buffer) rules.graphemes hplaced)
  | newline | tab => exact insertText_does h rules service _
  | undo => exact undo_does
  | redo => exact redo_does
  | copy =>
      obtain ⟨asked, hasked, hcore⟩ := view.copy_core
      exact .asks asked hasked hcore
  | cut => exact cut_does h rules service
  | paste clipboard =>
      cases clipboard with
      | none => exact .keep rfl
      | some pasted => exact insertText_does h rules service pasted
  | deleteLine =>
      exact applyWith_does rules service false
        (fun b s => b.deleteLines revision s)
        (records_deleteLines (b := view.buffer) hplaced)
  | duplicateLine =>
      exact applyWith_does rules service false
        (fun b s => b.duplicateLines revision s)
        (records_duplicateLines (b := view.buffer) hplaced)
  | moveLineUp =>
      exact applyWith_does rules service false
        (fun b s => b.moveLines revision s .up)
        (records_moveLines (b := view.buffer) hplaced hfits)
  | moveLineDown =>
      exact applyWith_does rules service false
        (fun b s => b.moveLines revision s .down)
        (records_moveLines (b := view.buffer) hplaced hfits)
  | runAll => exact runAll_does
  | triggerCompletion =>
      exact .keep (openCompletion_core service view rules true)
  | hover => exact showHover_does service
  | nextDiagnostic | prevDiagnostic => exact moveToDiagnostic_does h _
  | completionNext | completionPrev => exact .keep rfl
  | completionAccept => exact completionAccept_does
  | completionDismiss =>
      rw [dispatch, completionDismiss]
      split
      · exact .keep rfl
      · exact .keep rfl

theorem perform_does [CharTables] (h : InSession text view)
    (rules : TextRules) {call : Call} (hfits : view.Fits call) :
    Does call.revision view
      (view.perform rules call.service call.revision call.op) := by
  obtain ⟨service, revision, op⟩ := call
  cases op with
  | action action => exact dispatch_does h rules service action hfits
  | setText newText => exact setText_does newText
  | runStatementUnderCursor => exact runStatementUnderCursor_does rules
  | replaceTextInRange range newText =>
      exact replaceTextInRange_does h rules service range newText
  | replaceAndMarkTextInRange range newText =>
      exact (replaceTextInRange_does h rules service range newText).congr rfl
  | unmarkText => exact .keep rfl
  | mouseDown shift position =>
      refine onMouseDown_does h fun o ho => ?_
      obtain ⟨layout, hlayout, rfl⟩ := Option.map_eq_some_iff.mp ho
      obtain ⟨rfl, hboundary⟩ := hfits layout hlayout
      exact isCharBoundary_inLine _ _ hboundary
  | mouseMove pressed position => exact onMouseMove_does service pressed position
  | mouseExit => exact .keep (dismissPointerHover_core view)
  | render first count => exact .keep rfl
  | nextFrame shown message =>
      rw [perform, nextFrame]
      split
      · exact .keep rfl
      · exact .keep rfl
  | onDiagnostics => exact onDiagnostics_does service hfits
  | onSchemaRefreshed =>
      refine ⟨.keep, ?_, ⟨[.scheduleAnalysis _], rfl, ?_, ?_⟩⟩
      · rintro p ⟨⟩
      · simp [perform, onSchemaRefreshed, scheduleAnalysis, ask]
      · simp [perform, onSchemaRefreshed, scheduleAnalysis, ask]

end Calls

end EditorView

end Tempr.Ui
