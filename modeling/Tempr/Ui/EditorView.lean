import Tempr.Editor.Arrows
import Tempr.Editor.LineOps
import Tempr.Editor.Statements
import Tempr.Editor.WordMotion
import Tempr.Intel.Navigation
import Tempr.Intel.Requests

/-!
# The editor view

The view owns a buffer, the selections in it and what is shown over the text:
the completion popup, the hover card and the analysis.  Every key, every call of
the input method and every mouse event becomes a motion of the selections or an
edit of the buffer.  What the view asks of its owner is kept in the order in
which it is asked.
-/

namespace Tempr.Ui

open Tempr.Editor
open Tempr.Intel (Analysis CharTables CompletionItem CompletionKind HoverInfo)

/-! ## The completion popup -/

/-- The replacement a chosen item performs, and the caret after it. -/
def acceptEdit (item : CompletionItem) : ByteRange × ℕ :=
  (item.replace, item.replace.start + Rope.lenBytes item.insert)

/-- The rows of the popup and the highlighted index into them. -/
structure CompletionPopup where
  items : List CompletionItem
  selected : ℕ
  deriving DecidableEq, Repr

namespace CompletionPopup

def new (items : List CompletionItem) : CompletionPopup := ⟨items, 0⟩

def isEmpty (popup : CompletionPopup) : Bool := popup.items.isEmpty

def selectedItem (popup : CompletionPopup) : Option CompletionItem :=
  popup.items[popup.selected]?

/-- Move the highlight by `delta` rows, around both ends. -/
def moveSelection (popup : CompletionPopup) (delta : ℤ) : CompletionPopup :=
  if popup.items.isEmpty then { popup with selected := 0 }
  else
    { popup with
      selected := ((popup.selected + delta) % popup.items.length).toNat }

/-- New rows.  The highlighted item stays highlighted while it is present. -/
def refilter (popup : CompletionPopup) (items : List CompletionItem) :
    CompletionPopup :=
  let previous := popup.selectedItem.map fun item => (item.label, item.kind)
  let found := previous.bind fun p =>
    items.findIdx? fun item => item.label = p.1 ∧ item.kind = p.2
  ⟨items, found.getD 0⟩

end CompletionPopup

/-! ## The state of the view -/

inductive EditorEvent
  /-- the text changed -/
  | changed
  /-- run this SQL -/
  | run (sql : List Char)
  /-- something for the status bar -/
  | notice (text : List Char)
  deriving DecidableEq, Repr

/-- What the view asks of what is around it. -/
inductive Effect
  | emit (event : EditorEvent)
  | writeToClipboard (text : List Char)
  /-- analyse the text after a pause, unless the revision is no longer this -/
  | scheduleAnalysis (revision : ℕ)
  /-- show a card once the next frame is painted, for this revision -/
  | onNextFrame (revision : ℕ) (text : List Char)
  deriving DecidableEq, Repr

/-- A card; it is drawn when it has a place on the screen. -/
structure HoverCard where
  text : List Char
  anchored : Bool
  deriving DecidableEq, Repr

/-- A line as it was painted last. -/
structure LineLayout where
  start : ℕ
  shaped : List Char
  deriving DecidableEq, Repr

structure EditorView extends Editor.EditorView where
  analysis : Option (ℕ × Analysis)
  goalColumn : Option ℕ
  markedRange : Option ByteRange
  lineLayouts : List (ℕ × LineLayout)
  completion : Option CompletionPopup
  /-- the popup has a place on the screen -/
  completionAnchor : Bool
  hover : Option HoverCard
  pointerHoverOffset : Option ℕ
  hoverFromPointer : Bool
  /-- everything that has been asked for, in order -/
  effects : List Effect

/-- The answers of the intelligence service at one moment. -/
structure Intelligence where
  complete : Buffer → ℕ → Bool → List CompletionItem
  hover : Buffer → ℕ → Option HoverInfo
  /-- the analysis that is stored for a revision of the file -/
  analysis : ℕ → Option Analysis

/-- What the view relies on to read a text: the segments that motions stop at,
and the statements of the syntax tree. -/
structure TextRules where
  graphemes : Graphemes
  words : WordBounds
  statementAt : Rope → ℕ → Option StatementRange

end Tempr.Ui

namespace Tempr.Editor

/-- The text of a rejected edit. -/
def EditError.message : EditError → List Char
  | .outOfBounds start stop len =>
      s!"edit range {start}..{stop} exceeds buffer length {len}".toList
  | .invertedRange start stop => s!"edit range {start}..{stop} is inverted".toList
  | .notCharBoundary offset =>
      s!"byte offset {offset} is not on a UTF-8 character boundary".toList
  | .overlapping aStart aStop bStart bStop =>
      s!"edit ranges overlap: {aStart}..{aStop} and {bStart}..{bStop}".toList

/-- The texts of the selections that are not empty, a line each. -/
def Buffer.selectedText (b : Buffer) (selections : List Selection) :
    Except EditError (List Char) := do
  let parts ← ((normalize selections).filter fun s => !s.isEmpty).mapM
    fun s => b.slice s.range
  return ['\n'].intercalate parts

end Tempr.Editor

namespace Tempr.Ui

open Tempr.Editor
open Tempr.Intel (Analysis CharTables CompletionItem CompletionKind HoverInfo)

namespace EditorView

/-- A view on a new buffer, with its cursor at the start. -/
def new (revision : ℕ) (text : Rope) : EditorView where
  buffer := .new revision text
  selections := [Selection.cursor 0]
  analysis := none
  goalColumn := none
  markedRange := none
  lineLayouts := []
  completion := none
  completionAnchor := false
  hover := none
  pointerHoverOffset := none
  hoverFromPointer := false
  effects := []

def text (view : EditorView) : Rope := view.buffer.rope

def ask (view : EditorView) (effect : Effect) : EditorView :=
  { view with effects := view.effects ++ [effect] }

def emit (view : EditorView) (event : EditorEvent) : EditorView :=
  view.ask (.emit event)

/-- The analysis, while it describes the text on the screen. -/
def currentAnalysis (view : EditorView) : Option Analysis :=
  match view.analysis with
  | some (revision, analysis) =>
      if revision = view.buffer.revision then some analysis else none
  | none => none

def primary (view : EditorView) : Selection :=
  view.selections.getLast?.getD (Selection.cursor 0)

def setSelections (view : EditorView) (sels : List Selection) : EditorView :=
  { view with
    toEditorView := view.toEditorView.setSelections sels
    hover := none }

def scheduleAnalysis (view : EditorView) : EditorView :=
  view.ask (.scheduleAnalysis view.buffer.revision)

/-! ## The popup in the view -/

def closeCompletion (view : EditorView) : EditorView :=
  { view with completion := none, completionAnchor := false }

/-- The popup has a place when the line of the caret was painted, and began
before the caret. -/
def caretAnchor (view : EditorView) : Bool :=
  let head := view.primary.head
  match view.lineLayouts.lookup (view.buffer.rope.pointForOffset head).line with
  | some layout => decide (layout.start ≤ head)
  | none => false

/-- The popup has rows, and a place. -/
def completionOpen (view : EditorView) : Bool :=
  (view.completion.any fun popup => !popup.isEmpty) && view.completionAnchor

/-- Does the character before the caret belong to a word or a qualifier? -/
def shouldAutoComplete [CharTables] (rules : TextRules) (view : EditorView) :
    Bool :=
  let head := view.primary.head
  if head = 0 then false
  else
    let start := view.buffer.rope.prevGraphemeBoundary rules.graphemes head
    let last := (view.buffer.slice ⟨start, head⟩).toOption.bind List.getLast?
    last.any fun c =>
      CharTables.isAlphabetic c || CharTables.isNumeric c ||
        decide (c = '_' ∨ c = '"' ∨ c = '.')

section Popup

variable [CharTables] (rules : TextRules) (service : Intelligence)

def openCompletion (explicit : Bool) (view : EditorView) : EditorView :=
  if !explicit && !view.shouldAutoComplete rules then view.closeCompletion
  else
    let items := service.complete view.buffer view.primary.head explicit
    if items.isEmpty then view.closeCompletion
    else
      { view with
        completion := some (.new items)
        completionAnchor := view.caretAnchor
        hover := none }

omit [CharTables] in
def refilterCompletion (view : EditorView) : EditorView :=
  let items := service.complete view.buffer view.primary.head false
  if items.isEmpty then view.closeCompletion
  else
    match view.completion with
    | some popup =>
        { view with
          completion := some (popup.refilter items)
          completionAnchor := view.caretAnchor }
    | none => view

/-- What follows an edit that changed the text. -/
def afterEdit (autoComplete : Bool) (view : EditorView) : EditorView :=
  let view := { view with hover := none }
  let view :=
    if !autoComplete || !view.shouldAutoComplete rules then
      view.closeCompletion
    else if view.completion.isSome then view.refilterCompletion service
    else view.openCompletion rules service false
  view.scheduleAnalysis

/-! ## Edits -/

/-- Run an edit on the selections; one that is rejected changes nothing. -/
def applyWith (autoComplete : Bool)
    (op : Buffer → List Selection → Buffer × Except EditError EditOutcome)
    (view : EditorView) : EditorView :=
  let (buffer, result) := op view.buffer view.selections
  let view := { view with buffer := buffer }
  match result with
  | .ok outcome =>
      let view := { view with goalColumn := none }.setSelections
        outcome.selections
      if outcome.edit.isSome then
        (view.emit .changed).afterEdit rules service autoComplete
      else view
  | .error err =>
      view.emit (.notice ("edit rejected: ".toList ++ err.message))

def apply
    (op : Buffer → List Selection → Buffer × Except EditError EditOutcome)
    (view : EditorView) : EditorView :=
  view.applyWith rules service true op

def applyStructural
    (op : Buffer → List Selection → Buffer × Except EditError EditOutcome)
    (view : EditorView) : EditorView :=
  view.applyWith rules service false op

variable (revision : ℕ)

def insertText (text : List Char) (view : EditorView) : EditorView :=
  view.apply rules service fun b s => b.insertAt revision s text

/-- Replace the whole text, with the cursor behind it. -/
def setText (text : List Char) (view : EditorView) : EditorView :=
  let (buffer, result) := view.buffer.edit revision
    [⟨⟨0, view.buffer.len⟩, text⟩]
  let view := { view with buffer := buffer }
  let view :=
    match result with
    | .ok (some _) =>
        ({ view.closeCompletion with hover := none }.emit
          .changed).scheduleAnalysis
    | _ => view
  view.setSelections [Selection.cursor view.buffer.len]

/-- Undo or redo was done: announce it and restore the recorded selections. -/
def restore (sels : Option (List Selection)) (view : EditorView) :
    EditorView :=
  let view := { (view.emit .changed).closeCompletion with goalColumn := none }
  view.scheduleAnalysis.setSelections (sels.getD [Selection.cursor 0])

def undo (view : EditorView) : EditorView :=
  match view.buffer.undoWithSelections revision with
  | (buffer, some (_, sels)) => { view with buffer := buffer }.restore sels
  | (_, none) => view

def redo (view : EditorView) : EditorView :=
  match view.buffer.redoWithSelections revision with
  | (buffer, some (_, sels)) => { view with buffer := buffer }.restore sels
  | (_, none) => view

end Popup

end EditorView

end Tempr.Ui
