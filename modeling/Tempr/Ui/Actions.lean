import Tempr.Support.Transition
import Tempr.Ui.EditorView

/-!
# The actions of the editor view

Every entry of the view: its keys, the calls of the input method, the mouse, a
painted frame, the answers of the intelligence service and the calls of the
window.  Together they are the steps of a transition system.
-/

namespace Tempr.Ui

open Tempr.Editor Tempr.Support
open Tempr.Intel (Analysis CharTables CompletionItem CompletionKind HoverInfo)

/-- What the tab key inserts. -/
def tab : List Char := "  ".toList

inductive Action
  | moveLeft
  | moveRight
  | moveUp
  | moveDown
  | selectLeft
  | selectRight
  | selectUp
  | selectDown
  | wordLeft
  | wordRight
  | selectWordLeft
  | selectWordRight
  | lineStart
  | lineEnd
  | selectLineStart
  | selectLineEnd
  | documentStart
  | documentEnd
  | selectAll
  | backspace
  | delete
  | newline
  | tab
  | undo
  | redo
  | copy
  | cut
  /-- with what is on the clipboard -/
  | paste (clipboard : Option (List Char))
  | deleteLine
  | duplicateLine
  | moveLineUp
  | moveLineDown
  | runAll
  | triggerCompletion
  | hover
  | nextDiagnostic
  | prevDiagnostic
  | completionNext
  | completionPrev
  | completionAccept
  | completionDismiss
  deriving DecidableEq, Repr

namespace EditorView

/-! ## Motions -/

/-- Apply a motion to the head of every selection. -/
def moveEach (extend collapseToEdge : Bool) (f : ℕ → ℕ) (view : EditorView) :
    EditorView :=
  let view := { view.closeCompletion with goalColumn := none }
  view.setSelections 
    (view.selections.map (Editor.EditorView.moveOne extend collapseToEdge f))

/-- Move every head by lines, towards the goal column. -/
def moveVertical (delta : ℤ) (extend : Bool) (view : EditorView) :
    EditorView :=
  let view := view.closeCompletion
  let goal := view.goalColumn
  let moved := view.selections.map fun s =>
    (s, view.buffer.rope.moveVertically s.head delta goal)
  let view := view.setSelections (moved.map fun p => p.1.withHead p.2.1 extend)
  { view with goalColumn := moved.getLast?.map fun p => p.2.2 }

section Motions

variable (rules : TextRules) (view : EditorView)

def moveLeft : EditorView :=
  view.moveEach false true
    (view.buffer.rope.prevGraphemeBoundary rules.graphemes)

def moveRight : EditorView :=
  view.moveEach false true
    (view.buffer.rope.nextGraphemeBoundary rules.graphemes)

def selectLeft : EditorView :=
  view.moveEach true true
    (view.buffer.rope.prevGraphemeBoundary rules.graphemes)

def selectRight : EditorView :=
  view.moveEach true true
    (view.buffer.rope.nextGraphemeBoundary rules.graphemes)

def moveUp : EditorView := view.moveVertical (-1) false

def moveDown : EditorView := view.moveVertical 1 false

def selectUp : EditorView := view.moveVertical (-1) true

def selectDown : EditorView := view.moveVertical 1 true

def wordLeft : EditorView :=
  view.moveEach false false
    (view.buffer.rope.prevWordBoundary rules.graphemes rules.words)

def wordRight : EditorView :=
  view.moveEach false false
    (view.buffer.rope.nextWordBoundary rules.graphemes rules.words)

def selectWordLeft : EditorView :=
  view.moveEach true false
    (view.buffer.rope.prevWordBoundary rules.graphemes rules.words)

def selectWordRight : EditorView :=
  view.moveEach true false
    (view.buffer.rope.nextWordBoundary rules.graphemes rules.words)

def lineStart : EditorView :=
  view.moveEach false false view.buffer.rope.lineStart

def lineEnd : EditorView := view.moveEach false false view.buffer.rope.lineEnd

def selectLineStart : EditorView :=
  view.moveEach true false view.buffer.rope.lineStart

def selectLineEnd : EditorView :=
  view.moveEach true false view.buffer.rope.lineEnd

def documentStart : EditorView :=
  view.closeCompletion.setSelections [Selection.cursor 0]

def documentEnd : EditorView :=
  view.closeCompletion.setSelections [Selection.cursor view.buffer.len]

def selectAll : EditorView :=
  view.closeCompletion.setSelections [⟨0, view.buffer.len⟩]

end Motions

/-! ## Keys that edit -/

section Edits

variable [CharTables] (rules : TextRules) (service : Intelligence)
  (revision : ℕ) (view : EditorView)

def backspace : EditorView :=
  view.apply rules service fun b s => b.backspace rules.graphemes revision s

def delete : EditorView :=
  view.apply rules service fun b s => b.deleteForward rules.graphemes revision s

def newline : EditorView := view.insertText rules service revision ['\n']

def tab : EditorView := view.insertText rules service revision Ui.tab

omit [CharTables] in
def copy : EditorView :=
  match view.buffer.selectedText view.selections with
  | .ok text => if text.isEmpty then view else view.ask (.writeToClipboard text)
  | .error _ => view

def cut : EditorView :=
  let view := view.copy
  if view.selections.any fun s => !s.isEmpty then
    view.applyStructural rules service fun b s => b.insertAt revision s []
  else view

def paste (clipboard : Option (List Char)) : EditorView :=
  match clipboard with
  | some text => view.insertText rules service revision text
  | none => view

def deleteLine : EditorView :=
  view.applyStructural rules service fun b s => b.deleteLines revision s

def duplicateLine : EditorView :=
  view.applyStructural rules service fun b s => b.duplicateLines revision s

def moveLineUp : EditorView :=
  view.applyStructural rules service fun b s => b.moveLines revision s .up

def moveLineDown : EditorView :=
  view.applyStructural rules service fun b s => b.moveLines revision s .down

/-- Take the highlighted item.  One that was ranked for a caret that has since
moved is not applied. -/
def completionAccept : EditorView :=
  if !view.completionOpen then view
  else
    match view.completion.bind CompletionPopup.selectedItem with
    | none => view
    | some item =>
      if item.replace.stop ≠ view.primary.head then view.closeCompletion
      else
        let (range, cursor) := acceptEdit item
        let view := view.closeCompletion
        let (buffer, result) := view.buffer.edit revision [⟨range, item.insert⟩]
        let view := { view with buffer := buffer }
        match result with
        | .ok edit =>
            let view := view.setSelections [Selection.cursor cursor]
            if edit.isSome then
              { view.emit .changed with hover := none }.closeCompletion
                |>.scheduleAnalysis
            else view
        | .error err =>
            view.emit (.notice ("completion rejected: ".toList ++ err.message))

end Edits

/-! ## Running -/

def runAll (view : EditorView) : EditorView :=
  let view := view.closeCompletion
  if isBlank view.text then view else view.emit (.run view.text)

/-- Run the selected text, else the statement under the cursor. -/
def runStatementUnderCursor (rules : TextRules) (view : EditorView) :
    EditorView :=
  let view := view.closeCompletion
  let primary := view.primary
  if !primary.isEmpty then
    match view.buffer.slice primary.range with
    | .ok sql => view.emit (.run sql)
    | .error _ => view
  else
    match rules.statementAt view.text primary.head with
    | some range =>
        if range.kind = .error then
          view.emit (.notice
            "Statement under cursor has a syntax error; not sent.".toList)
        else
          match view.buffer.slice ⟨range.start, range.stop⟩ with
          | .ok sql => view.emit (.run sql)
          | .error _ => view
    | none => view.emit (.notice "No statement under cursor.".toList)

/-! ## The popup, the card and the diagnostics -/

def completionMove (delta : ℤ) (view : EditorView) : EditorView :=
  { view with completion := view.completion.map (·.moveSelection delta) }

def completionNext : EditorView → EditorView := completionMove 1

def completionPrev : EditorView → EditorView := completionMove (-1)

def completionDismiss (view : EditorView) : EditorView :=
  if view.completion.isSome then view.closeCompletion else view

def diagnosticAt (view : EditorView) (offset : ℕ) : Option (List Char) := do
  let analysis ← view.currentAnalysis
  let found ← analysis.diagnostics.find? fun d =>
    d.range.start ≤ offset ∧ offset ≤ d.range.stop
  return found.message

def showHover (service : Intelligence) (view : EditorView) : EditorView :=
  let head := view.primary.head
  let text := ((service.hover view.buffer head).map HoverInfo.contents).or
    (view.diagnosticAt head)
  match text with
  | none =>
      { view with hover := none }.emit
        (.notice "No symbol or diagnostic at the cursor.".toList)
  | some text =>
      { view with
        hover := some ⟨text, view.caretAnchor⟩
        hoverFromPointer := false }

def moveToDiagnostic (forward : Bool) (view : EditorView) : EditorView :=
  match view.currentAnalysis.bind fun analysis =>
      Intel.diagnosticTarget analysis view.primary.head forward with
  | none => view.emit (.notice "No diagnostics.".toList)
  | some (start, message) =>
      (view.closeCompletion.setSelections [Selection.cursor start]).ask
        (.onNextFrame view.buffer.revision message)

/-- A frame was painted.  The card belongs to the text that it was asked
for. -/
def nextFrame (revision : ℕ) (text : List Char) (view : EditorView) :
    EditorView :=
  if view.buffer.revision ≠ revision then view
  else { view with hover := some ⟨text, view.caretAnchor⟩ }

/-- The service has published diagnostics. -/
def onDiagnostics (service : Intelligence) (view : EditorView) : EditorView :=
  let revision := view.buffer.revision
  match service.analysis revision with
  | some analysis => { view with analysis := some (revision, analysis) }
  | none => view

/-- The catalog changed. -/
def onSchemaRefreshed (view : EditorView) : EditorView :=
  { view with analysis := none, hover := none }.scheduleAnalysis

/-! ## The mouse -/

/-- The offset under a position: a painted line, and an index into its text. -/
def offsetForPosition (view : EditorView) (position : ℕ × ℕ) : Option ℕ :=
  (view.lineLayouts.lookup position.1).map fun layout =>
    layout.start + position.2

def onMouseDown (shift : Bool) (position : ℕ × ℕ) (view : EditorView) :
    EditorView :=
  let view := view.closeCompletion
  match view.offsetForPosition position with
  | some offset =>
      let sel :=
        if shift then view.primary.withHead offset true
        else Selection.cursor offset
      { view with goalColumn := none }.setSelections [sel]
  | none => view

/-- Close a card that the pointer opened. -/
def dismissPointerHover (view : EditorView) : EditorView :=
  let view := { view with pointerHoverOffset := none }
  if view.hoverFromPointer then
    { view with hover := none, hoverFromPointer := false }
  else view

def onMouseMove (service : Intelligence) (pressed : Bool) (position : ℕ × ℕ)
    (view : EditorView) : EditorView :=
  if pressed then view.dismissPointerHover
  else
    let offset := view.offsetForPosition position
    if offset = view.pointerHoverOffset then view
    else
      let view := { view with pointerHoverOffset := offset }
      match offset.bind (service.hover view.buffer) with
      | none => view.dismissPointerHover
      | some info =>
          { view with
            hover := some ⟨info.contents, true⟩
            hoverFromPointer := true }

def onMouseExit (view : EditorView) : EditorView := view.dismissPointerHover

/-- Paint the lines of a range. -/
def render (first count : ℕ) (view : EditorView) : EditorView :=
  { view with
    lineLayouts := (List.range' first count).map fun line =>
      (line, ⟨view.buffer.rope.lineStartOf line,
        (view.buffer.rope.line line).getD []⟩) }

/-! ## The input method -/

section InputMethod

variable [CharTables] (rules : TextRules) (service : Intelligence)
  (revision : ℕ)

omit [CharTables] in
def textForRange (view : EditorView) (rangeUtf16 : ByteRange) :
    ByteRange × Option (List Char) :=
  let range := view.text.rangeFromUtf16 rangeUtf16
  (view.text.rangeToUtf16 range, (view.buffer.slice range).toOption)

omit [CharTables] in
/-- The primary selection, and whether its head is before its anchor. -/
def selectedTextRange (view : EditorView) : ByteRange × Bool :=
  (view.text.rangeToUtf16 view.primary.range,
    decide (view.primary.head < view.primary.anchor))

omit [CharTables] in
def markedTextRange (view : EditorView) : Option ByteRange :=
  view.markedRange.map view.text.rangeToUtf16

omit [CharTables] in
def unmarkText (view : EditorView) : EditorView :=
  { view with markedRange := none }

/-- Replace a range that the input method gives, else the marked text, else the
selections. -/
def replaceTextInRange (rangeUtf16 : Option ByteRange) (newText : List Char)
    (view : EditorView) : EditorView :=
  let target := (rangeUtf16.map view.text.rangeFromUtf16).or view.markedRange
  let view := { view with markedRange := none }
  match target with
  | some r =>
      let (buffer, result) := view.buffer.insertAt revision
        [⟨r.start, r.stop⟩] newText
      let view := { view with buffer := buffer }
      match result with
      | .ok outcome =>
          let view := view.setSelections outcome.selections
          if outcome.edit.isSome then
            (view.emit .changed).afterEdit rules service true
          else view
      | .error err =>
          view.emit (.notice ("edit rejected: ".toList ++ err.message))
  | none => view.insertText rules service revision newText

/-- Replace, and mark the new text, which the next call replaces. -/
def replaceAndMarkTextInRange (rangeUtf16 : Option ByteRange)
    (newText : List Char) (view : EditorView) : EditorView :=
  let view := view.replaceTextInRange rules service revision rangeUtf16 newText
  let head := view.primary.head
  let len := Rope.lenBytes newText
  { view with
    markedRange :=
      if newText ≠ [] ∧ len ≤ head then some ⟨head - len, head⟩ else none }

end InputMethod

/-! ## The system -/

/-- Run the action of a key. -/
def dispatch [CharTables] (rules : TextRules) (service : Intelligence)
    (revision : ℕ) (view : EditorView) : Action → EditorView
  | .moveLeft => view.moveLeft rules
  | .moveRight => view.moveRight rules
  | .moveUp => view.moveUp
  | .moveDown => view.moveDown
  | .selectLeft => view.selectLeft rules
  | .selectRight => view.selectRight rules
  | .selectUp => view.selectUp
  | .selectDown => view.selectDown
  | .wordLeft => view.wordLeft rules
  | .wordRight => view.wordRight rules
  | .selectWordLeft => view.selectWordLeft rules
  | .selectWordRight => view.selectWordRight rules
  | .lineStart => view.lineStart
  | .lineEnd => view.lineEnd
  | .selectLineStart => view.selectLineStart
  | .selectLineEnd => view.selectLineEnd
  | .documentStart => view.documentStart
  | .documentEnd => view.documentEnd
  | .selectAll => view.selectAll
  | .backspace => view.backspace rules service revision
  | .delete => view.delete rules service revision
  | .newline => view.newline rules service revision
  | .tab => view.tab rules service revision
  | .undo => view.undo revision
  | .redo => view.redo revision
  | .copy => view.copy
  | .cut => view.cut rules service revision
  | .paste clipboard => view.paste rules service revision clipboard
  | .deleteLine => view.deleteLine rules service revision
  | .duplicateLine => view.duplicateLine rules service revision
  | .moveLineUp => view.moveLineUp rules service revision
  | .moveLineDown => view.moveLineDown rules service revision
  | .runAll => view.runAll
  | .triggerCompletion => view.openCompletion rules service true
  | .hover => view.showHover service
  | .nextDiagnostic => view.moveToDiagnostic true
  | .prevDiagnostic => view.moveToDiagnostic false
  | .completionNext => view.completionNext
  | .completionPrev => view.completionPrev
  | .completionAccept => view.completionAccept revision
  | .completionDismiss => view.completionDismiss

inductive Op
  | action (action : Action)
  | setText (text : List Char)
  | runStatementUnderCursor
  | replaceTextInRange (rangeUtf16 : Option ByteRange) (newText : List Char)
  | replaceAndMarkTextInRange (rangeUtf16 : Option ByteRange)
      (newText : List Char)
  | unmarkText
  | mouseDown (shift : Bool) (position : ℕ × ℕ)
  | mouseMove (pressed : Bool) (position : ℕ × ℕ)
  | mouseExit
  | render (first count : ℕ)
  | nextFrame (revision : ℕ) (text : List Char)
  | onDiagnostics
  | onSchemaRefreshed
  deriving DecidableEq, Repr

/-- One call of the view, with the answers of the service at that moment and
the revision that a change of the text gets. -/
def perform [CharTables] (rules : TextRules) (service : Intelligence)
    (revision : ℕ) (view : EditorView) : Op → EditorView
  | .action action => view.dispatch rules service revision action
  | .setText text => view.setText revision text
  | .runStatementUnderCursor => view.runStatementUnderCursor rules
  | .replaceTextInRange range text =>
      view.replaceTextInRange rules service revision range text
  | .replaceAndMarkTextInRange range text =>
      view.replaceAndMarkTextInRange rules service revision range text
  | .unmarkText => view.unmarkText
  | .mouseDown shift position => view.onMouseDown shift position
  | .mouseMove pressed position => view.onMouseMove service pressed position
  | .mouseExit => view.onMouseExit
  | .render first count => view.render first count
  | .nextFrame shown text => view.nextFrame shown text
  | .onDiagnostics => view.onDiagnostics service
  | .onSchemaRefreshed => view.onSchemaRefreshed

/-- A call of the view as it happens. -/
structure Call where
  service : Intelligence
  revision : ℕ
  op : Op

/-- Revisions are drawn from one counter, so the one of a change is above the
one of the text. -/
def system [CharTables] (rules : TextRules) (text : Rope) :
    System EditorView Call where
  init view := ∃ revision, view = new revision text
  step view call view' := view.buffer.revision < call.revision ∧
    view' = view.perform rules call.service call.revision call.op

end EditorView

end Tempr.Ui
