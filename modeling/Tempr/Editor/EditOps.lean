import Mathlib.Data.List.DropRight
import Tempr.Editor.Motion

/-!
# Multi-cursor editing operations

Each operation takes the current selections, applies one batch of edits and
returns the selections to use afterwards.
-/

namespace Tempr.Editor

/-- Result of an editing operation; `edit` is `none` when no text changed. -/
structure EditOutcome where
  edit : Option ℕ
  selections : List Selection
  deriving DecidableEq, Repr

inductive LineDirection where
  | up
  | down
  deriving DecidableEq, Repr

/-- Cursor positions after each of the sorted selections is replaced by
`insertedLen` bytes; `shift` is the growth of the text so far. -/
def cursorsAfterReplacements (insertedLen : ℕ) : ℤ → List Selection →
    List Selection
  | _, [] => []
  | shift, s :: sels =>
      let start := ((s.start : ℤ) + shift).toNat
      Selection.cursor (start + insertedLen) ::
        cursorsAfterReplacements insertedLen
          (shift + ((insertedLen : ℤ) - s.range.len)) sels

namespace Rope

/-- Last line a selection touches.  A nonempty selection that ends at column
zero does not touch the line it ends on. -/
def lastTouchedLine (rope : Rope) (s : Selection) : ℕ :=
  let stop := pointForOffset rope s.stop
  if !s.isEmpty && stop.column = 0 && 0 < stop.line then stop.line - 1
  else stop.line

/-- Whole-line block of one selection, and whether it ends in a line break. -/
def lineBlock (rope : Rope) (s : Selection) : ByteRange × Bool :=
  let first := (pointForOffset rope s.start).line
  let last := lastTouchedLine rope s
  let start := offsetForPoint rope ⟨first, 0⟩
  if last + 1 < lenLines rope then
    (⟨start, offsetForPoint rope ⟨last + 1, 0⟩⟩, true)
  else (⟨start, lenBytes rope⟩, false)

/-- Merge blocks that touch into the block last kept. -/
def mergeBlocks : ByteRange × Bool → List (ByteRange × Bool) →
    List (ByteRange × Bool)
  | last, [] => [last]
  | last, block :: rest =>
      if block.1.start ≤ last.1.stop then
        mergeBlocks (⟨last.1.start, max last.1.stop block.1.stop⟩, block.2)
          rest
      else last :: mergeBlocks block rest

/-- Whole-line blocks covered by the selections. -/
def lineBlocks (rope : Rope) (selections : List Selection) :
    List (ByteRange × Bool) :=
  match (normalize selections).map (lineBlock rope) with
  | [] => []
  | block :: rest => mergeBlocks block rest

end Rope

/-- Cursors at the starts of the deleted blocks; `shift` bytes were deleted
before the first of them. -/
def cursorsAfterDeletions : ℕ → List (ByteRange × Bool) → List Selection
  | _, [] => []
  | shift, (r, _) :: blocks =>
      Selection.cursor (r.start - shift) ::
        cursorsAfterDeletions (shift + r.len) blocks

/-- Skip the blocks that end before a selection starts, except the last one,
and count the copies inserted behind them. -/
def skipBlocks (start : ℕ) : ℕ → List (ByteRange × List Char) →
    ℕ × List (ByteRange × List Char)
  | shift, block :: next :: rest =>
      if block.1.stop ≤ start then
        skipBlocks start (shift + Rope.lenBytes block.2) (next :: rest)
      else (shift, block :: next :: rest)
  | shift, blocks => (shift, blocks)

/-- Selections moved onto the copies of their blocks.  There is a block for
every selection, so the list of blocks is never empty here. -/
def selectionsOnCopies : ℕ → List (ByteRange × List Char) →
    List Selection → List Selection
  | _, _, [] => []
  | shift, blocks, s :: sels =>
      let (shift, blocks) := skipBlocks s.start shift blocks
      let blockLen := (blocks.head?.map fun b => Rope.lenBytes b.2).getD 0
      ⟨s.anchor + shift + blockLen, s.head + shift + blockLen⟩ ::
        selectionsOnCopies shift blocks sels

/-- Trailing carriage returns and line feeds removed. -/
def trimEndBreaks (text : List Char) : List Char :=
  text.rdropWhile fun c => c = '\r' || c = '\n'

/-- Does a selection start in the offsets that travel with a moved block? -/
def travels (contentEnd : ℕ) (s : Selection) (r : ByteRange) : Bool :=
  r.contains s.start || (s.start = r.stop && r.stop = contentEnd)

/-- Move a selection with the block it starts in.  `deltas` holds the moved
blocks with the distance of each move. -/
def moveSelection (deltas : List (ByteRange × ℤ)) (contentEnd : ℕ)
    (s : Selection) : Selection :=
  let delta := ((deltas.find? fun d => travels contentEnd s d.1).map
    Prod.snd).getD 0
  ⟨((s.anchor : ℤ) + delta).toNat, ((s.head : ℤ) + delta).toNat⟩

namespace Buffer

/-- Apply the batch of an operation and return its selections. -/
def applyWithSelections (revision : ℕ) (b : Buffer) (edits : List Edit)
    (before after : List Selection) : Buffer × Except EditError EditOutcome :=
  let (b, result) := b.editWithSelections revision edits before after
  (b, result.map fun edit => ⟨edit, after⟩)

/-- Replace every selection with a text. -/
def insertAt (revision : ℕ) (b : Buffer) (selections : List Selection)
    (text : List Char) : Buffer × Except EditError EditOutcome :=
  let sels := normalize selections
  let edits := sels.map fun s => ⟨s.range, text⟩
  let after := normalize
    (cursorsAfterReplacements (Rope.lenBytes text) 0 sels)
  b.applyWithSelections revision edits sels after

/-- Delete ranges; `before` are the selections of the user. -/
def deleteRanges (revision : ℕ) (b : Buffer) (ranges before : List Selection) :
    Buffer × Except EditError EditOutcome :=
  let ranges := normalize ranges
  let edits := ranges.map fun s => ⟨s.range, []⟩
  let after := normalize (cursorsAfterReplacements 0 0 ranges)
  b.applyWithSelections revision edits before after

/-- Delete the selections; an empty one deletes the previous grapheme. -/
def backspace (g : Graphemes) (revision : ℕ) (b : Buffer)
    (selections : List Selection) : Buffer × Except EditError EditOutcome :=
  let before := normalize selections
  let ranges := before.map fun s =>
    if s.isEmpty then ⟨b.rope.prevGraphemeBoundary g s.head, s.head⟩ else s
  b.deleteRanges revision ranges before

/-- Delete the selections; an empty one deletes the next grapheme. -/
def deleteForward (g : Graphemes) (revision : ℕ) (b : Buffer)
    (selections : List Selection) : Buffer × Except EditError EditOutcome :=
  let before := normalize selections
  let ranges := before.map fun s =>
    if s.isEmpty then ⟨s.head, b.rope.nextGraphemeBoundary g s.head⟩ else s
  b.deleteRanges revision ranges before

/-- Delete every line touched by a selection. -/
def deleteLines (revision : ℕ) (b : Buffer) (selections : List Selection) :
    Buffer × Except EditError EditOutcome :=
  let blocks := b.rope.lineBlocks selections
  let edits := blocks.map fun (r, _) => ⟨r, []⟩
  let before := normalize selections
  b.applyWithSelections revision edits before
    (cursorsAfterDeletions 0 blocks)

/-- The text inserted behind a block to duplicate it. -/
def copyOfBlock (b : Buffer) (block : ByteRange × Bool) :
    Except EditError (List Char) := do
  let text ← b.slice block.1
  return if block.2 then text else '\n' :: text

/-- Duplicate every line touched by a selection below itself. -/
def duplicateLines (revision : ℕ) (b : Buffer) (selections : List Selection) :
    Buffer × Except EditError EditOutcome :=
  let blocks := b.rope.lineBlocks selections
  let before := normalize selections
  match blocks.mapM b.copyOfBlock with
  | .error err => (b, .error err)
  | .ok texts =>
    let copies := (blocks.map Prod.fst).zip texts
    let edits := copies.map fun (r, text) => ⟨⟨r.stop, r.stop⟩, text⟩
    b.applyWithSelections revision edits before
      (selectionsOnCopies 0 copies before)

/-- The edit that moves a block over its neighbour, with the range of offsets
that move and their distance; `none` for a block at the edge. -/
def moveBlock (b : Buffer) (direction : LineDirection)
    (entry : ByteRange × Bool) :
    Except EditError (Option (Edit × (ByteRange × ℤ))) := do
  let (block, hasBreak) := entry
  let blockEnd :=
    if hasBreak then b.rope.lineEnd (block.stop - 1) else block.stop
  let blockText ← b.slice ⟨block.start, blockEnd⟩
  match direction with
  | .up =>
      if block.start = 0 then return none
      let prevLine := (b.rope.pointForOffset block.start).line - 1
      let prevStart := b.rope.lineStartOf prevLine
      let prev ← b.slice ⟨prevStart, block.start⟩
      let prevContent := trimEndBreaks prev
      let brk := prev.drop prevContent.length
      return some
        (⟨⟨prevStart, blockEnd⟩, blockText ++ brk ++ prevContent⟩,
          (⟨block.start, max block.stop (blockEnd + 1)⟩,
            -(Rope.lenBytes prev : ℤ)))
  | .down =>
      let nextStart := block.stop
      if !hasBreak || nextStart ≥ b.len then return none
      let nextEnd := b.rope.lineEnd nextStart
      let brk ← b.slice ⟨blockEnd, nextStart⟩
      let next ← b.slice ⟨nextStart, nextEnd⟩
      return some
        (⟨⟨block.start, nextEnd⟩, next ++ brk ++ blockText⟩,
          (⟨block.start, block.stop⟩,
            (Rope.lenBytes next + Rope.lenBytes brk : ℤ)))

/-- Move the lines touched by the selections one line up or down. -/
def moveLines (revision : ℕ) (b : Buffer) (selections : List Selection)
    (direction : LineDirection) : Buffer × Except EditError EditOutcome :=
  let before := normalize selections
  let blocks := b.rope.lineBlocks before
  match blocks.mapM (b.moveBlock direction) with
  | .error err => (b, .error err)
  | .ok moves =>
    let moves := moves.filterMap id
    let edits := moves.map Prod.fst
    let deltas := moves.map Prod.snd
    if edits = [] then (b, .ok ⟨none, before⟩)
    else
      let after := before.map (moveSelection deltas b.len)
      b.applyWithSelections revision edits before after

end Buffer

end Tempr.Editor
