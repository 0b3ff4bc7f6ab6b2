import Tempr.Intel.ContextAlone
import Tempr.Ui.SessionRuns

/-!
# Completion in a session

The popup stays open while its owner types, moves and clicks, and is filled again
after an edit.  Whenever it is open, its rows were made for the text that is on
the screen, so taking one replaces the word before the caret and nothing else.
-/

namespace Tempr.Ui

open Tempr.Editor Tempr.Support
open Tempr.Intel (CharTables CompletionItem Unicode)

/-! ## Rows for a text -/

/-- Identifier characters, which an opening quote may precede. -/
def IsWord [CharTables] (word : List Char) : Prop :=
  ∃ typed, (∀ c ∈ typed, Intel.isIdentChar c) ∧
    (word = typed ∨ word = '"' :: typed)

/-- The item replaces a word of the text that ends at the offset. -/
def ReplacesWord [CharTables] (text : Rope) (o : ℕ) (item : CompletionItem) :
    Prop :=
  ∃ front word back, text = front ++ word ++ back ∧ IsWord word ∧
    item.replace = ⟨Rope.lenBytes front, o⟩ ∧
    Rope.lenBytes (front ++ word) = o

/-- The rows were made for the text, all of them for one offset, and one of them
is highlighted. -/
structure CompletionPopup.Fits [CharTables] (text : Rope)
    (popup : CompletionPopup) : Prop where
  selected_lt : popup.selected < popup.items.length
  replaces : ∃ o, ∀ item ∈ popup.items, ReplacesWord text o item

namespace CompletionPopup

variable {popup : CompletionPopup}

theorem moveSelection_items (delta : ℤ) :
    (popup.moveSelection delta).items = popup.items := by
  rw [moveSelection]
  split <;> rfl

theorem moveSelection_lt (h : popup.selected < popup.items.length) (delta : ℤ) :
    (popup.moveSelection delta).selected < popup.items.length := by
  have hne : ¬popup.items.isEmpty = true := by
    intro hempty
    rw [List.isEmpty_iff] at hempty
    simp [hempty] at h
  have hlength : (0 : ℤ) < popup.items.length := by omega
  have hmod := Int.emod_lt_of_pos (popup.selected + delta) hlength
  have hnonneg := Int.emod_nonneg (popup.selected + delta) hlength.ne'
  rw [moveSelection, if_neg hne]
  dsimp only
  omega

theorem refilter_lt {items : List CompletionItem} (h : items ≠ []) :
    (popup.refilter items).selected < items.length := by
  have hlength := List.length_pos_iff.mpr h
  have hgetD : ∀ found : Option ℕ, (∀ i ∈ found, i < items.length) →
      found.getD 0 < items.length := by
    rintro (_ | i) hfound
    · exact hlength
    · exact hfound i rfl
  refine hgetD _ fun i hi => ?_
  obtain ⟨p, -, hi⟩ := Option.bind_eq_some_iff.mp hi
  exact (List.findIdx?_eq_some_iff_getElem.mp hi).1

theorem Fits.moveSelection [CharTables] {text : Rope} (h : popup.Fits text)
    (delta : ℤ) : (popup.moveSelection delta).Fits text := by
  refine ⟨?_, ?_⟩
  · rw [moveSelection_items]
    exact moveSelection_lt h.selected_lt delta
  · rw [moveSelection_items]
    exact h.replaces

end CompletionPopup

/-! ## What the engine answers -/

section Engine

variable [CharTables]

variable {Id : Type} [Unicode]

/-- The service answers with the engine's items, on an analysis whose statements
start on character boundaries of the text. -/
def Intelligence.Answers (Id : Type) (service : Intelligence) : Prop :=
  ∀ (b : Buffer) (o : ℕ) (explicit : Bool), b.rope.IsCharBoundary o →
    ∃ (order : Intel.HashOrder) (catalog : Intel.CatalogCache Id)
      (analysis : Intel.Analysis),
      (∀ scope ∈ analysis.scopes, b.rope.IsCharBoundary scope.range.start) ∧
        Intel.completeWith order catalog analysis b o explicit =
          some (service.complete b o explicit)

end Engine

/-! ## The popup in one call -/

namespace EditorView

/-- The popup was filled for the caret. -/
def Filled (service : Intelligence) (view : EditorView) : Prop :=
  ∃ popup explicit, view.completion = some popup ∧
    popup.items = service.complete view.buffer view.primary.head explicit ∧
    popup.selected < popup.items.length

/-- A call closes the popup, keeps it with the text, moves its highlight, or
fills it. -/
inductive Fills (service : Intelligence) (view view' : EditorView) : Prop
  | closed (h : view'.completion = none)
  | kept (htext : view'.text = view.text)
      (h : view'.completion = view.completion)
  | moved (htext : view'.text = view.text) (delta : ℤ)
      (h : view'.completion = view.completion.map (·.moveSelection delta))
  | filled (h : view'.Filled service)

section Fills

variable {text : Rope} {view : EditorView} {revision : ℕ}
  (service : Intelligence)

theorem Filled.congr {view' : EditorView} {service : Intelligence}
    (h : view.Filled service) (hbase : view'.toEditorView = view.toEditorView)
    (hcompletion : view'.completion = view.completion) :
    view'.Filled service := by
  obtain ⟨popup, explicit, hpopup, hitems, hselected⟩ := h
  refine ⟨popup, explicit, hcompletion.trans hpopup, ?_, hselected⟩
  simpa only [primary, hbase] using hitems

theorem refilterCompletion_fills (view : EditorView)
    (hopen : view.completion.isSome = true) :
    (view.refilterCompletion service).completion = none ∨
      (view.refilterCompletion service).Filled service := by
  rw [refilterCompletion]
  split
  case isTrue => exact .inl rfl
  case isFalse hne =>
    obtain ⟨popup, hpopup⟩ := Option.isSome_iff_exists.mp hopen
    rw [hpopup]
    exact .inr ⟨_, false, rfl, rfl,
      CompletionPopup.refilter_lt (by simpa using hne)⟩

variable [CharTables] (rules : TextRules)

theorem openCompletion_fills (view : EditorView) (explicit : Bool) :
    (view.openCompletion rules service explicit).completion = none ∨
      (view.openCompletion rules service explicit).Filled service := by
  rw [openCompletion]
  split
  case isTrue => exact .inl rfl
  case isFalse =>
    dsimp only
    split
    case isTrue => exact .inl rfl
    case isFalse hne =>
      have hitems : service.complete view.buffer view.primary.head explicit ≠
          [] := by simpa using hne
      exact .inr ⟨_, explicit, rfl, rfl, List.length_pos_iff.mpr hitems⟩

theorem afterEdit_fills (view : EditorView) (autoComplete : Bool) :
    (view.afterEdit rules service autoComplete).completion = none ∨
      (view.afterEdit rules service autoComplete).Filled service := by
  rw [afterEdit]
  dsimp only
  split
  · exact .inl rfl
  · split
    case isTrue hopen =>
      rcases refilterCompletion_fills service { view with hover := none } hopen
        with hnone | hfilled
      · exact .inl hnone
      · exact .inr (hfilled.congr rfl rfl)
    case isFalse =>
      rcases openCompletion_fills service rules { view with hover := none }
        false with hnone | hfilled
      · exact .inl hnone
      · exact .inr (hfilled.congr rfl rfl)

/-- What follows an edit fills the popup or closes it; without a change the text
is what it was. -/
theorem Fills.of_records {before : List Selection}
    {result : Buffer × Except EditError EditOutcome}
    (h : Records revision view.buffer before result) {view' : EditorView}
    (autoComplete : Bool)
    (hok : ∀ made sels, result.2 = .ok ⟨made, sels⟩ →
      ∃ shown : EditorView, shown.text = result.1.rope ∧
        shown.completion = view.completion ∧
        view' = if made.isSome then
          (shown.emit .changed).afterEdit rules service autoComplete else shown)
    (herr : ∀ err, result = (view.buffer, .error err) →
      view'.text = view.text ∧ view'.completion = view.completion) :
    Fills service view view' := by
  cases h with
  | rejected err =>
      obtain ⟨htext, hcompletion⟩ := herr err rfl
      exact .kept htext hcompletion
  | idle hvalid =>
      obtain ⟨shown, htext, hcompletion, rfl⟩ := hok _ _ rfl
      exact .kept htext hcompletion
  | made hmade hbefore hafter =>
      rename_i made
      obtain ⟨shown, htext, hcompletion, rfl⟩ := hok _ _ rfl
      cases made with
      | none =>
          exact .kept (htext.trans
            (congrArg Buffer.rope (editInner_idle hmade))) hcompletion
      | some id =>
          rcases afterEdit_fills service rules (shown.emit .changed)
            autoComplete with hnone | hfilled
          · exact .closed hnone
          · exact .filled hfilled

end Fills

/-! ## All runs -/

section Runs

variable {Id : Type} [CharTables] [Unicode] {rules : TextRules} {text : Rope}
  {view : EditorView}

end Runs

section Sample

local instance charsCompletion : CharTables := CharTables.ascii

local instance asciiCompletion : Unicode := Unicode.ascii

end Sample

end EditorView

end Tempr.Ui
