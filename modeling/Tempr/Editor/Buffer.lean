import Tempr.Editor.Selection

/-!
# The buffer

Text storage and edit history of one SQL file.  An edit batch is validated as
a whole, sorted into application order and applied from the end of the text
backwards; it is recorded as one transaction that undo reverts change by
change.  A buffer operation returns the new buffer together with its result.

The process-wide revision counter is an argument: `revision` is the value that
the counter hands out if the operation asks for one.
-/

namespace Tempr.Editor

open Tempr.Support

/-- A line and a byte column within it. -/
structure Point where
  line : ℕ
  column : ℕ
  deriving DecidableEq, Repr

inductive EditError where
  | outOfBounds (start stop len : ℕ)
  | invertedRange (start stop : ℕ)
  | notCharBoundary (offset : ℕ)
  | overlapping (aStart aStop bStart bStop : ℕ)
  deriving DecidableEq, Repr

/-- A replacement of a range of the current text. -/
structure Edit where
  range : ByteRange
  text : List Char
  deriving DecidableEq, Repr

/-- One replacement of a transaction, remembered for undo and redo. -/
structure Change where
  start : ℕ
  removed : List Char
  inserted : List Char
  deriving DecidableEq, Repr

structure SelectionSnapshot where
  before : List Selection
  after : List Selection
  deriving DecidableEq, Repr

structure Transaction where
  id : ℕ
  /-- In application order. -/
  changes : List Change
  selections : Option SelectionSnapshot
  deriving DecidableEq, Repr

/-- Undo and redo stacks; the head of each list is its top. -/
structure EditHistory where
  undo : List Transaction
  redo : List Transaction
  deriving DecidableEq, Repr

structure Buffer where
  rope : Rope
  history : EditHistory
  syntaxDirty : Bool
  nextEdit : ℕ
  revision : ℕ
  deriving DecidableEq, Repr

namespace Rope

def charIndex (rope : Rope) (byte : ℕ) : Except EditError ℕ :=
  let ch := byteToChar rope byte
  if charToByte rope ch ≠ byte then .error (.notCharBoundary byte) else .ok ch

/-- Validate a byte range and convert it to character indices. -/
def charRange (rope : Rope) (range : ByteRange) :
    Except EditError (ℕ × ℕ) := do
  if range.start > range.stop then
    throw (.invertedRange range.start range.stop)
  if range.stop > lenBytes rope then
    throw (.outOfBounds range.start range.stop (lenBytes rope))
  return (← charIndex rope range.start, ← charIndex rope range.stop)

/-- Replace a validated range; the removed text comes first. -/
def replaceBytes (rope : Rope) (range : ByteRange) (text : List Char) :
    List Char × Rope :=
  let start := byteToChar rope range.start
  let stop := byteToChar rope range.stop
  let removed := slice rope start stop
  let rope := if start ≠ stop then remove rope start stop else rope
  let rope := if text ≠ [] then insert rope start text else rope
  (removed, rope)

/-- The character that owns a byte.  A byte equals an ASCII code exactly when
its character is that ASCII character. -/
def charAt (rope : Rope) (byte : ℕ) : Option Char :=
  rope[byteToChar rope byte]?

/-- Length of a line without its terminator, a line feed with an optional
carriage return before it. -/
def lineContentLen (rope : Rope) (line : ℕ) : ℕ :=
  let start := lineToByte rope line
  let stop :=
    if line + 1 < lenLines rope then lineToByte rope (line + 1)
    else lenBytes rope
  let len := stop - start
  if 0 < len ∧ charAt rope (stop - 1) = some '\n' then
    if 0 < len - 1 ∧ charAt rope (stop - 2) = some '\r' then len - 2
    else len - 1
  else len

def pointForOffset (rope : Rope) (offset : ℕ) : Point :=
  let offset := min offset (lenBytes rope)
  let line := byteToLine rope offset
  ⟨line, offset - lineToByte rope line⟩

def offsetForPoint (rope : Rope) (point : Point) : ℕ :=
  let lastLine := lenLines rope - 1
  let line := min point.line lastLine
  let byte := lineToByte rope line + min point.column (lineContentLen rope line)
  charToByte rope (byteToChar rope byte)

end Rope

/-- Validate every range of a batch, in the order of the caller. -/
def checkRanges (rope : Rope) : List Edit → Except EditError Unit
  | [] => .ok ()
  | e :: edits => do
      let _ ← rope.charRange e.range
      checkRanges rope edits

/-- Does the edit at one index of a batch come no later than another in
application order?  Starts descend; of equal starts the longer range comes
first, then the later entry of the caller. -/
def appliesBefore (a b : Edit × ℕ) : Prop :=
  ((compare b.1.range.start a.1.range.start).then
    ((compare b.1.range.stop a.1.range.stop).then (compare b.2 a.2))) ≠ .gt

instance : DecidableRel appliesBefore := fun _ _ =>
  inferInstanceAs (Decidable (_ ≠ _))

/-- The edits of a batch with their indices, in application order. -/
def applicationOrder (edits : List Edit) : List (Edit × ℕ) :=
  edits.zipIdx.insertionSort appliesBefore

/-- Reject neighbours in application order that overlap. -/
def checkOverlaps : List (Edit × ℕ) → Except EditError Unit
  | hi :: lo :: rest =>
      let sameStartBothNonempty :=
        lo.1.range.start = hi.1.range.start ∧
          ¬lo.1.range.isEmpty ∧ ¬hi.1.range.isEmpty
      if lo.1.range.stop > hi.1.range.start ∨ sameStartBothNonempty then
        .error (.overlapping lo.1.range.start lo.1.range.stop
          hi.1.range.start hi.1.range.stop)
      else checkOverlaps (lo :: rest)
  | _ => .ok ()

/-- Apply edits in application order and collect their changes.  An edit that
replaces a text by itself is skipped. -/
def applyEdits : List (Edit × ℕ) → Rope → List Change → Rope × List Change
  | [], rope, changes => (rope, changes)
  | (e, _) :: rest, rope, changes =>
      if rope.byteSlice e.range.start e.range.stop = e.text then
        applyEdits rest rope changes
      else
        let (removed, rope) := rope.replaceBytes e.range e.text
        applyEdits rest rope
          (changes ++ [⟨e.range.start, removed, e.text⟩])

namespace Buffer

def new (revision : ℕ) (text : Rope) : Buffer :=
  { rope := text
    history := ⟨[], []⟩
    syntaxDirty := true
    nextEdit := 1
    revision := revision }

def len (b : Buffer) : ℕ := b.rope.lenBytes

/-- The content of a byte range. -/
def slice (b : Buffer) (range : ByteRange) : Except EditError (List Char) := do
  let (start, stop) ← b.rope.charRange range
  return b.rope.slice start stop

def editInner (revision : ℕ) (b : Buffer) (edits : List Edit)
    (selections : Option SelectionSnapshot) :
    Buffer × Except EditError (Option ℕ) :=
  match checkRanges b.rope edits with
  | .error err => (b, .error err)
  | .ok () =>
    let order := applicationOrder edits
    match checkOverlaps order with
    | .error err => (b, .error err)
    | .ok () =>
      let (rope, changes) := applyEdits order b.rope []
      if changes = [] then (b, .ok none)
      else
        ({ rope := rope
           history := ⟨⟨b.nextEdit, changes, selections⟩ :: b.history.undo, []⟩
           syntaxDirty := true
           nextEdit := b.nextEdit + 1
           revision := revision },
          .ok (some b.nextEdit))

/-- Apply a batch of replacements expressed against the current text. -/
def edit (revision : ℕ) (b : Buffer) (edits : List Edit) :
    Buffer × Except EditError (Option ℕ) :=
  b.editInner revision edits none

/-- Like `edit`, also remembering the selections around the transaction. -/
def editWithSelections (revision : ℕ) (b : Buffer) (edits : List Edit)
    (before after : List Selection) : Buffer × Except EditError (Option ℕ) :=
  b.editInner revision edits (some ⟨before, after⟩)

/-- Revert one change. -/
def revertChange (rope : Rope) (c : Change) : Rope :=
  (rope.replaceBytes ⟨c.start, c.start + Rope.lenBytes c.inserted⟩ c.removed).2

/-- Re-apply one change. -/
def reapplyChange (rope : Rope) (c : Change) : Rope :=
  (rope.replaceBytes ⟨c.start, c.start + Rope.lenBytes c.removed⟩ c.inserted).2

/-- Revert the most recent transaction, its last change first. -/
def undo (revision : ℕ) (b : Buffer) : Buffer × Option ℕ :=
  match b.history.undo with
  | [] => (b, none)
  | tx :: rest =>
      ({ b with
          rope := tx.changes.reverse.foldl revertChange b.rope
          history := ⟨rest, tx :: b.history.redo⟩
          syntaxDirty := b.syntaxDirty || !tx.changes.isEmpty
          revision := revision },
        some tx.id)

/-- Re-apply the most recently undone transaction. -/
def redo (revision : ℕ) (b : Buffer) : Buffer × Option ℕ :=
  match b.history.redo with
  | [] => (b, none)
  | tx :: rest =>
      ({ b with
          rope := tx.changes.foldl reapplyChange b.rope
          history := ⟨tx :: b.history.undo, rest⟩
          syntaxDirty := b.syntaxDirty || !tx.changes.isEmpty
          revision := revision },
        some tx.id)

/-- `undo`, also returning the selections before the reverted transaction. -/
def undoWithSelections (revision : ℕ) (b : Buffer) :
    Buffer × Option (ℕ × Option (List Selection)) :=
  match b.undo revision with
  | (b, none) => (b, none)
  | (b, some id) =>
      let sel := b.history.redo.head?.bind fun tx =>
        tx.selections.map SelectionSnapshot.before
      (b, some (id, sel))

/-- `redo`, also returning the selections after the re-applied transaction. -/
def redoWithSelections (revision : ℕ) (b : Buffer) :
    Buffer × Option (ℕ × Option (List Selection)) :=
  match b.redo revision with
  | (b, none) => (b, none)
  | (b, some id) =>
      let sel := b.history.undo.head?.bind fun tx =>
        tx.selections.map SelectionSnapshot.after
      (b, some (id, sel))

end Buffer

end Tempr.Editor
