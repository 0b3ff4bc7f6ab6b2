import Tempr.Editor.Highlights
import Tempr.Support.RunLength
import Tempr.Support.SortedScan
import Tempr.Ui.EditorView

/-!
# Painting lines

A frame asks for the highlights of the lines that it shows and paints each line
as runs of bytes that look alike.  How a byte looks is decided by the capture
of the whole text that is topmost there and by the worst diagnostic there, so a
line looks the same wherever it is scrolled to.
-/

namespace Tempr.Ui

open Tempr.Editor
open Tempr.Intel (Analysis Diagnostic Severity)
open Tempr.Support
open Tempr.Support.Overlay (Layer byKey overlay)

/-! ## Colours -/

namespace Theme

def text : ℕ := 0xcdd6f4
def error : ℕ := 0xf38ba8
def warning : ℕ := 0xf9e2af
def hlKeyword : ℕ := 0x89b4fa
def hlKeywordOperator : ℕ := 0xcba6f7
def hlString : ℕ := 0xa6e3a1
def hlNumber : ℕ := 0xfab387
def hlComment : ℕ := 0x6c7086
def hlFunction : ℕ := 0x89dceb
def hlType : ℕ := 0xf9e2af
def hlOperator : ℕ := 0x94e2d5
def hlPunctuation : ℕ := 0x9399b2

/-- Colour for a highlight kind. -/
def highlightColor : HighlightKind → ℕ
  | .keyword => hlKeyword
  | .keywordOperator => hlKeywordOperator
  | .string => hlString
  | .number | .boolean => hlNumber
  | .comment => hlComment
  | .functionCall | .parameter => hlFunction
  | .type => hlType
  | .operator => hlOperator
  | .punctuation => hlPunctuation
  | .variableName | .field | .other => text

end Theme

/-! ## Runs of one line -/

structure UnderlineStyle (Hsla : Type) where
  thickness : ℕ
  color : Option Hsla
  wavy : Bool
  deriving DecidableEq, Repr

structure TextRun (Font Hsla : Type) where
  len : ℕ
  font : Font
  color : Hsla
  backgroundColor : Option Hsla
  underline : Option (UnderlineStyle Hsla)
  strikethrough : Option Hsla
  deriving DecidableEq, Repr

/-- The colour of an underline, and whether it is wavy. -/
def underlineFor : Severity → ℕ × Bool
  | .error => (Theme.error, false)
  | .warning => (Theme.warning, true)

/-- Underline a byte.  A straight line stays. -/
def underlineSlot (style : ℕ × Bool) : Option (ℕ × Bool) → Option (ℕ × Bool)
  | some (color, false) => some (color, false)
  | _ => some style

/-- The part of a range that is on a line, counted from the start of the
line. -/
def onLine {α : Type} (lineStart lineEnd : ℕ) (range : ByteRange)
    (apply : α → α) : Layer α where
  start := max range.start lineStart - lineStart
  stop := min range.stop lineEnd - lineStart
  apply := apply

section Runs

variable {Font Hsla : Type} [DecidableEq Hsla] (rgb : ℕ → Hsla) (font : Font)

def baseRun : TextRun Font Hsla where
  len := 0
  font := font
  color := rgb Theme.text
  backgroundColor := none
  underline := none
  strikethrough := none

/-- Paint one more byte. -/
def pushRun (runs : List (TextRun Font Hsla))
    (slot : Option HighlightKind × Option (ℕ × Bool)) :
    List (TextRun Font Hsla) :=
  let color := rgb (slot.1.elim Theme.text Theme.highlightColor)
  let underline := slot.2.map fun (color, wavy) =>
    (⟨1, some (rgb color), wavy⟩ : UnderlineStyle Hsla)
  let fresh := { baseRun rgb font with len := 1, color, underline }
  match runs.getLast? with
  | some last =>
      if last.color = color ∧ last.underline = underline then
        runs.dropLast ++ [{ last with len := last.len + 1 }]
      else runs ++ [fresh]
  | none => runs ++ [fresh]

/-- Text runs for one line, from the visible highlights; `none` when a range is
not one of the bytes of the line. -/
def runsForLine (visible : List Highlight) (analysis : Option Analysis)
    (lineStart : ℕ) (text : List Char) : Option (List (TextRun Font Hsla)) :=
  if text = [] then some []
  else do
    let len := Rope.lenBytes text
    let lineEnd := lineStart + len
    let upper := (visible.takeWhile fun h => h.range.start < lineEnd).length
    let covering := (visible.take upper).filter fun h => lineStart < h.range.stop
    let kinds ← overlay
      (covering.map fun h => onLine lineStart lineEnd h.range fun _ =>
        some h.kind)
      (List.replicate len none)
    let diagnostics := analysis.elim [] fun analysis =>
      analysis.diagnosticsIn ⟨lineStart, lineEnd⟩
    let underlines ← overlay
      (diagnostics.map fun d => onLine lineStart lineEnd d.range
        (underlineSlot (underlineFor d.severity)))
      (List.replicate len none)
    return (kinds.zip underlines).foldl (pushRun rgb font) []

end Runs

/-! ## Frames -/

section Frames

variable {Tree Font Hsla : Type} [DecidableEq Hsla] (ts : TreeSitter Tree)
  (q : HighlightQuery Tree) (rgb : ℕ → Hsla) (font : Font)

/-- The highlights of the lines from `first` up to `stop`. -/
def visibleHighlights (b : ParsedBuffer Tree) (first stop : ℕ) :
    ParsedBuffer Tree × List Highlight :=
  if stop ≤ first then (b, [])
  else
    let start := b.rope.lineStartOf first
    let last := b.rope.lineEndOf (stop - 1)
    let (b, visible) := b.highlights ts q ⟨start, last⟩
    (b, visible.insertionSort (byKey (·.range.start)))

/-- The runs of one of the lines that a frame shows. -/
def paintLine (view : EditorView) (tree : Option Tree)
    (first stop line : ℕ) : Option (List (TextRun Font Hsla)) :=
  let b : ParsedBuffer Tree := { view.buffer with tree := tree }
  let (b, visible) := visibleHighlights ts q b first stop
  runsForLine rgb font visible view.currentAnalysis (b.rope.lineStartOf line)
    ((b.rope.line line).getD [])

end Frames

/-! ## How a byte looks -/

/-- A byte under an error is underlined straight, one under warnings alone in
waves. -/
def underlineAt (diagnostics : List Diagnostic) (i : ℕ) : Option (ℕ × Bool) :=
  let here := diagnostics.filter fun d => d.range.contains i
  if here.any fun d => d.severity = .error then some (Theme.error, false)
  else if here.isEmpty then none
  else some (Theme.warning, true)

section Looks

variable {Font Hsla : Type} [DecidableEq Hsla] (rgb : ℕ → Hsla) (font : Font)

/-- The look of a byte, from its class and its underline. -/
def lookOf (slot : Option HighlightKind × Option (ℕ × Bool)) :
    Hsla × Option (UnderlineStyle Hsla) :=
  (rgb (slot.1.elim Theme.text Theme.highlightColor),
    slot.2.map fun (color, wavy) => ⟨1, some (rgb color), wavy⟩)

omit [DecidableEq Hsla] in
/-- The look of a byte under the captures and the diagnostics of a text. -/
def lookAt (captures : List Capture) (diagnostics : List Diagnostic) (i : ℕ) :
    Hsla × Option (UnderlineStyle Hsla) :=
  lookOf rgb ((Capture.topmost captures i).map Capture.kind,
    underlineAt diagnostics i)

def TextRun.look (run : TextRun Font Hsla) :
    Hsla × Option (UnderlineStyle Hsla) :=
  (run.color, run.underline)

/-- The runs show one byte after the other as it looks, none is empty, each is
as long as it can be, and nothing else about them varies. -/
structure Paints (looks : List (Hsla × Option (UnderlineStyle Hsla)))
    (runs : List (TextRun Font Hsla)) : Prop where
  spells : runs.flatMap (fun run => List.replicate run.len run.look) = looks
  pos : ∀ run ∈ runs, 0 < run.len
  chain : runs.IsChain fun run next => run.look ≠ next.look
  plain : ∀ run ∈ runs, run.font = font ∧ run.backgroundColor = none ∧
    run.strikethrough = none

end Looks

/-! ## Slots of a line -/

section Slots

variable {lineStart lineEnd : ℕ}

theorem onLine_fits {α : Type} {range : ByteRange} {apply : α → α}
    (hordered : range.start ≤ range.stop)
    (hmeets : (⟨lineStart, lineEnd⟩ : ByteRange).meets range) :
    (onLine lineStart lineEnd range apply).Fits (lineEnd - lineStart) := by
  simp only [ByteRange.meets, Bool.and_eq_true, decide_eq_true_eq] at hmeets
  simp only [Layer.Fits, onLine]
  omega

theorem onLine_covers {α : Type} {range : ByteRange} {apply : α → α} {i : ℕ}
    (hi : i < lineEnd - lineStart) :
    decide ((onLine lineStart lineEnd range apply).Covers i) =
      range.contains (lineStart + i) := by
  rw [Bool.eq_iff_iff, decide_eq_true_iff]
  simp only [Layer.Covers, onLine, ByteRange.contains, decide_eq_true_eq,
    Bool.and_eq_true]
  omega

theorem contains_onLine {i : ℕ} (hi : i < lineEnd - lineStart) :
    (⟨lineStart, lineEnd⟩ : ByteRange).contains (lineStart + i) := by
  simp only [ByteRange.contains, Bool.and_eq_true, decide_eq_true_eq]
  omega

/-- What covers a byte of the line meets the line. -/
theorem filter_contains_meets {α : Type} (range : α → ByteRange) (l : List α)
    {i : ℕ} (hi : i < lineEnd - lineStart) :
    (l.filter fun a => (⟨lineStart, lineEnd⟩ : ByteRange).meets (range a)).filter
        (fun a => (range a).contains (lineStart + i)) =
      l.filter fun a => (range a).contains (lineStart + i) := by
  rw [List.filter_filter]
  refine List.filter_congr fun a _ => ?_
  cases ha : (range a).contains (lineStart + i) with
  | false => rfl
  | true => simp [ByteRange.meets_of_contains (contains_onLine hi) ha]

/-- Layers over the empty slots of a line. -/
theorem overlay_line {α : Type} {layers : List (Layer (Option α))} {n : ℕ}
    (hfits : ∀ layer ∈ layers, layer.Fits n) :
    overlay layers (List.replicate n none) =
      some ((List.range n).map fun i => Overlay.through layers i none) := by
  rw [Overlay.overlay_eq (by simpa using hfits)]
  exact congrArg some (List.ext_getElem (by simp) (by simp))

theorem take_covering {visible : List Highlight}
    (hsorted : visible.Pairwise (byKey (·.range.start))) :
    (visible.take
        (visible.takeWhile fun h => h.range.start < lineEnd).length).filter
        (fun h => lineStart < h.range.stop) =
      visible.filter fun h =>
        (⟨lineStart, lineEnd⟩ : ByteRange).meets h.range := by
  have htake : visible.take
      (visible.takeWhile fun h => h.range.start < lineEnd).length =
        visible.takeWhile fun h => h.range.start < lineEnd :=
    List.prefix_iff_eq_take.mp (List.takeWhile_prefix _) |>.symm
  have hblock : visible.Pairwise fun h h' =>
      decide (h'.range.start < lineEnd) → decide (h.range.start < lineEnd) :=
    hsorted.imp fun {h h'} hle hlt => by
      simp only [byKey, decide_eq_true_eq] at *
      omega
  rw [htake, SortedScan.takeWhile_eq_filter hblock, List.filter_filter]
  refine List.filter_congr fun h _ => ?_
  rw [Bool.eq_iff_iff]
  simp only [ByteRange.meets, Bool.and_eq_true, decide_eq_true_eq]

/-- The classes of the bytes of a line. -/
theorem overlay_kinds {visible : List Highlight}
    (hordered : ∀ h ∈ visible,
      (⟨lineStart, lineEnd⟩ : ByteRange).meets h.range →
        h.range.start ≤ h.range.stop) :
    overlay
        ((visible.filter fun h =>
            (⟨lineStart, lineEnd⟩ : ByteRange).meets h.range).map
          fun h => onLine lineStart lineEnd h.range fun _ => some h.kind)
        (List.replicate (lineEnd - lineStart) none) =
      some ((List.range (lineEnd - lineStart)).map fun i =>
        kindAt visible (lineStart + i)) := by
  have hfits : ∀ layer ∈ (visible.filter fun h =>
      (⟨lineStart, lineEnd⟩ : ByteRange).meets h.range).map
        fun h => onLine lineStart lineEnd h.range fun _ => some h.kind,
      layer.Fits (lineEnd - lineStart) := by
    intro layer hlayer
    obtain ⟨h, hh, rfl⟩ := List.mem_map.mp hlayer
    obtain ⟨hmem, hmeets⟩ := List.mem_filter.mp hh
    exact onLine_fits (hordered h hmem hmeets) hmeets
  rw [overlay_line hfits]
  refine congrArg some (List.map_congr_left fun i hi => ?_)
  have hlt := List.mem_range.mp hi
  rw [Overlay.through_overwrite _ _ (fun h => some h.kind) (fun _ _ => rfl)]
  simp only [onLine_covers hlt]
  rw [filter_contains_meets Highlight.range visible hlt, kindAt]
  cases (visible.filter fun h => h.range.contains (lineStart + i)).getLast? <;>
    rfl

theorem foldl_underlineSlot (diagnostics : List Diagnostic) :
    diagnostics.foldl (fun slot d => underlineSlot (underlineFor d.severity) slot)
        none =
      if diagnostics.any fun d => d.severity = .error then
        some (Theme.error, false)
      else if diagnostics.isEmpty then none
      else some (Theme.warning, true) := by
  induction diagnostics using List.reverseRecOn with
  | nil => rfl
  | append_singleton ds d ih =>
      rw [List.foldl_concat, ih]
      cases hsome : ds.any fun d => d.severity = .error <;>
        cases hempty : ds.isEmpty <;> cases hd : d.severity <;>
          simp [hsome, hd, underlineSlot, underlineFor]

/-- The underlines of the bytes of a line. -/
theorem overlay_underlines {analysis : Analysis}
    (hordered : ∀ d ∈ analysis.diagnostics, d.range.start ≤ d.range.stop) :
    overlay
        ((analysis.diagnosticsIn ⟨lineStart, lineEnd⟩).map fun d =>
          onLine lineStart lineEnd d.range
            (underlineSlot (underlineFor d.severity)))
        (List.replicate (lineEnd - lineStart) none) =
      some ((List.range (lineEnd - lineStart)).map fun i =>
        underlineAt analysis.diagnostics (lineStart + i)) := by
  have hin : analysis.diagnosticsIn ⟨lineStart, lineEnd⟩ =
      analysis.diagnostics.filter fun d =>
        (⟨lineStart, lineEnd⟩ : ByteRange).meets d.range := by
    refine List.filter_congr fun d _ => ?_
    rw [Bool.eq_iff_iff]
    simp only [ByteRange.meets, Bool.and_eq_true, decide_eq_true_eq]
    exact and_comm
  rw [hin, overlay_line]
  · refine congrArg some (List.map_congr_left fun i hi => ?_)
    have hlt := List.mem_range.mp hi
    rw [Overlay.through, List.filter_map, List.foldl_map]
    have hcovers : ∀ d : Diagnostic, decide ((onLine lineStart lineEnd d.range
        (underlineSlot (underlineFor d.severity))).Covers i) =
          d.range.contains (lineStart + i) := fun d => onLine_covers hlt
    simp only [Function.comp_def, hcovers]
    rw [filter_contains_meets Diagnostic.range _ hlt]
    exact foldl_underlineSlot _
  · intro layer hlayer
    obtain ⟨d, hd, rfl⟩ := List.mem_map.mp hlayer
    obtain ⟨hmem, hmeets⟩ := List.mem_filter.mp hd
    exact onLine_fits (hordered d hmem) hmeets

end Slots

/-! ## Runs of slots -/

section Spelling

variable {Font Hsla : Type} [DecidableEq Hsla] (rgb : ℕ → Hsla) (font : Font)

/-- A run of bytes that look alike. -/
def runOf (run : ℕ × (Hsla × Option (UnderlineStyle Hsla))) :
    TextRun Font Hsla :=
  { baseRun rgb font with len := run.1, color := run.2.1, underline := run.2.2 }

theorem pushRun_concat (runs : List (TextRun Font Hsla))
    (last : TextRun Font Hsla) (slot : Option HighlightKind × Option (ℕ × Bool)) :
    pushRun rgb font (runs ++ [last]) slot =
      if last.look = lookOf rgb slot then
        runs ++ [{ last with len := last.len + 1 }]
      else runs ++ [last] ++ [runOf rgb font (1, lookOf rgb slot)] := by
  have hlook : last.look = lookOf rgb slot ↔
      last.color = (lookOf rgb slot).1 ∧
        last.underline = (lookOf rgb slot).2 := Prod.ext_iff
  by_cases hsame : last.look = lookOf rgb slot
  · have hparts := hlook.mp hsame
    simp only [lookOf] at hparts
    rw [if_pos hsame]
    simp [pushRun, hparts]
  · have hparts := mt hlook.mpr hsame
    simp only [lookOf] at hparts
    rw [if_neg hsame]
    simp [pushRun, hparts, runOf, lookOf]

/-- The code's runs are the run lengths of the looks. -/
theorem foldl_pushRun
    (slots : List (Option HighlightKind × Option (ℕ × Bool))) :
    slots.foldl (pushRun rgb font) [] =
      (RunLength.encode (slots.map (lookOf rgb))).map (runOf rgb font) := by
  induction slots using List.reverseRecOn with
  | nil => rfl
  | append_singleton slots slot ih =>
      rw [List.foldl_concat, ih, List.map_append, List.map_singleton,
        RunLength.encode_concat]
      generalize RunLength.encode (slots.map (lookOf rgb)) = runs
      cases runs using List.reverseRecOn with
      | nil => rfl
      | append_singleton runs run =>
          have hrun : (runOf rgb font run).look = run.2 := rfl
          rw [List.map_append, List.map_singleton, pushRun_concat,
            RunLength.push_concat, hrun]
          split
          case isTrue => simp [runOf]
          case isFalse => simp

theorem paints_encode (looks : List (Hsla × Option (UnderlineStyle Hsla))) :
    Paints font looks ((RunLength.encode looks).map (runOf rgb font)) where
  spells := by
    rw [List.flatMap_map]
    exact RunLength.decode_encode looks
  pos := by
    intro run hrun
    obtain ⟨r, hr, rfl⟩ := List.mem_map.mp hrun
    exact (RunLength.encode_reduced looks).pos r hr
  chain := (List.isChain_map _).mpr (RunLength.encode_reduced looks).chain
  plain := by
    intro run hrun
    obtain ⟨r, -, rfl⟩ := List.mem_map.mp hrun
    exact ⟨rfl, rfl, rfl⟩

variable {rgb font}

/-- On a line that the highlights are exact for, the runs exist and show what
is there. -/
theorem runsForLine_eq {visible : List Highlight} {captures : List Capture}
    {analysis : Option Analysis} {lineStart : ℕ} {text : List Char}
    (hsorted : visible.Pairwise (byKey (·.range.start)))
    (hordered : ∀ h ∈ visible,
      (⟨lineStart, lineStart + Rope.lenBytes text⟩ : ByteRange).meets h.range →
        h.range.start ≤ h.range.stop)
    (hkinds : ∀ i < Rope.lenBytes text, kindAt visible (lineStart + i) =
      (Capture.topmost captures (lineStart + i)).map Capture.kind)
    (hdiagnostics : ∀ a, analysis = some a →
      ∀ d ∈ a.diagnostics, d.range.start ≤ d.range.stop) :
    runsForLine rgb font visible analysis lineStart text =
      some ((RunLength.encode ((List.range (Rope.lenBytes text)).map fun i =>
        lookAt rgb captures ((analysis.map Analysis.diagnostics).getD [])
          (lineStart + i))).map (runOf rgb font)) := by
  by_cases hnil : text = []
  · simp [runsForLine, hnil]
  have hkindSlots := overlay_kinds hordered
  rw [Nat.add_sub_cancel_left] at hkindSlots
  have hkindMap : (List.range (Rope.lenBytes text)).map
        (fun i => kindAt visible (lineStart + i)) =
      (List.range (Rope.lenBytes text)).map fun i =>
        (Capture.topmost captures (lineStart + i)).map Capture.kind :=
    List.map_congr_left fun i hi => hkinds i (List.mem_range.mp hi)
  have hunderlineSlots : overlay
      ((analysis.elim [] fun a => a.diagnosticsIn
          ⟨lineStart, lineStart + Rope.lenBytes text⟩).map fun d =>
          onLine lineStart (lineStart + Rope.lenBytes text) d.range
            (underlineSlot (underlineFor d.severity)))
      (List.replicate (Rope.lenBytes text) none) =
      some ((List.range (Rope.lenBytes text)).map fun i =>
        underlineAt ((analysis.map Analysis.diagnostics).getD [])
          (lineStart + i)) := by
    cases analysis with
    | none =>
        refine Eq.trans (overlay_line (by simp)) ?_
        rfl
    | some a =>
        have hslots := @overlay_underlines lineStart
          (lineStart + Rope.lenBytes text) a (hdiagnostics a rfl)
        rw [Nat.add_sub_cancel_left] at hslots
        exact hslots
  rw [runsForLine, if_neg hnil]
  simp only [take_covering hsorted, hkindSlots, hkindMap, hunderlineSlots,
    Option.bind_eq_bind, Option.bind_some, List.zip_map', foldl_pushRun,
    List.map_map]
  rfl

end Spelling

/-! ## Lines of a frame -/

section Lines

variable {rope : Rope} {line line' : ℕ}

open Rope in
theorem line_parts (h : line < rope.lenLines) :
    ∃ content, rope.line line = some content ∧
      rope.lineStartOf line + lenBytes content = rope.lineEndOf line := by
  obtain ⟨p, s, rfl, hp, rfl⟩ := exists_lineStart_of_lt h
  obtain ⟨q, t, rfl, hq, ht⟩ := exists_lineTail s
  have hstop := offsetForPoint_lineEnd hp hq ht le_rfl
  have hlen := lineContentLen_parts hp hq ht
  have hstart := lineToByte_append hp (q ++ t)
  have hbegin := offsetForPoint_lineStart hp (q ++ t)
  rw [← List.append_assoc] at h hstart hbegin ⊢
  obtain ⟨rest, hcut, -⟩ := exists_content_cut p q t
  refine ⟨lineContent q t, ?_, ?_⟩
  · rw [Rope.line, if_neg (by omega)]
    simp only [hstart, hlen]
    conv_lhs => rw [hcut]
    exact congrArg some (byteSlice_parts p _ _)
  · rw [lineStartOf, lineEndOf, hbegin, hstop]

theorem lineStartOf_mono (hle : line ≤ line') (h : line' < rope.lenLines) :
    rope.lineStartOf line ≤ rope.lineStartOf line' := by
  refine Rope.offsetForPoint_mono h ?_
  rcases Nat.lt_or_eq_of_le hle with hlt | rfl
  · exact Or.inl hlt
  · exact Or.inr ⟨rfl, le_rfl⟩

theorem lineEndOf_mono (hle : line ≤ line') (h : line' < rope.lenLines) :
    rope.lineEndOf line ≤ rope.lineEndOf line' := by
  refine Rope.offsetForPoint_mono h ?_
  rcases Nat.lt_or_eq_of_le hle with hlt | rfl
  · exact Or.inl hlt
  · exact Or.inr ⟨rfl, le_rfl⟩

end Lines

section Painted

variable {Tree Font Hsla : Type} [DecidableEq Hsla] {ts : TreeSitter Tree}
  {q : HighlightQuery Tree} {rgb : ℕ → Hsla} {font : Font}

/-- In any frame that shows it, a line is painted as the run lengths of what
the present text, parsed from scratch, and the present diagnostics say. -/
theorem paintLine_eq {view : EditorView} {tree : Option Tree}
    (hts : ts.Incremental) (hq : q.Documented)
    (hsynced : ParsedBuffer.Synced ts { view.buffer with tree := tree })
    (hdiagnostics : ∀ a, view.currentAnalysis = some a →
      ∀ d ∈ a.diagnostics, d.range.start ≤ d.range.stop)
    {first stop line : ℕ} {content : List Char}
    (hfirst : first ≤ line) (hstop : line < stop)
    (hlines : stop ≤ view.text.lenLines)
    (hcontent : view.text.line line = some content)
    (hlen : view.text.lineStartOf line + Rope.lenBytes content =
      view.text.lineEndOf line) :
    paintLine ts q rgb font view tree first stop line =
      some ((RunLength.encode ((List.range (Rope.lenBytes content)).map fun i =>
        lookAt rgb (q.all (ts.parse view.text) view.text)
          ((view.currentAnalysis.map Analysis.diagnostics).getD [])
          (view.text.lineStartOf line + i))).map (runOf rgb font)) := by
  have hstart := lineStartOf_mono hfirst (hstop.trans_le hlines)
  have hend := lineEndOf_mono (Nat.le_sub_one_of_lt hstop)
    (show stop - 1 < view.text.lenLines by omega)
  have hvisible : visibleHighlights ts q { view.buffer with tree := tree }
      first stop =
        ({ view.buffer with
            tree := some (ts.parse view.text), syntaxDirty := false },
          highlights q (ts.parse view.text) view.text
            ⟨view.text.lineStartOf first, view.text.lineEndOf (stop - 1)⟩) := by
    rw [visibleHighlights, if_neg (by omega)]
    simp only [ParsedBuffer.highlights, hsynced.syntaxTree hts]
    exact congrArg (Prod.mk _) (highlights_sorted.insertionSort_eq)
  rw [paintLine]
  simp only [hvisible]
  change runsForLine rgb font _ view.currentAnalysis
    (view.text.lineStartOf line) ((view.text.line line).getD []) = _
  rw [hcontent, Option.getD_some]
  refine runsForLine_eq highlights_sorted ?_ ?_ hdiagnostics
  · intro h hh hmeets
    refine hq.ordered_of_meets hh ?_
    simp only [ByteRange.meets, Bool.and_eq_true, decide_eq_true_eq] at *
    exact ⟨lt_of_le_of_lt hstart hmeets.1, by omega⟩
  · intro i hi
    refine hq.kindAt_highlights ?_
    simp only [ByteRange.contains, Bool.and_eq_true, decide_eq_true_eq]
    omega

/-- However a buffer has been edited, a line of it is painted in full, each
byte in the colour of the capture that is topmost there among all captures of
the present text and underlined for the worst diagnostic there, in as few runs
as can be; and it is painted so wherever the view is scrolled to. -/
theorem painted_exact {view : EditorView} {tree : Option Tree} {text : Rope}
    (hts : ts.Incremental) (hq : q.Documented)
    (hbuffer : (ParsedBuffer.system ts text).Reachable
      { view.buffer with tree := tree })
    (hdiagnostics : ∀ a, view.currentAnalysis = some a →
      ∀ d ∈ a.diagnostics, d.range.start ≤ d.range.stop)
    {line : ℕ} (hline : line < view.text.lenLines) :
    ∃ content runs, view.text.line line = some content ∧
      Paints font ((List.range (Rope.lenBytes content)).map fun i =>
        lookAt rgb (q.all (ts.parse view.text) view.text)
          ((view.currentAnalysis.map Analysis.diagnostics).getD [])
          (view.text.lineStartOf line + i)) runs ∧
      ∀ first stop, first ≤ line → line < stop → stop ≤ view.text.lenLines →
        paintLine ts q rgb font view tree first stop line = some runs := by
  obtain ⟨-, hsynced⟩ := ParsedBuffer.synced_of_reachable hts hbuffer
  obtain ⟨content, hcontent, hlen⟩ := line_parts hline
  refine ⟨content, _, hcontent, paints_encode rgb font _, ?_⟩
  intro first stop hfirst hstop hlines
  exact paintLine_eq hts hq hsynced hdiagnostics hfirst hstop hlines hcontent
    hlen

end Painted

/-! ## One line -/

/-- A query that captures a text, its first byte and its third one. -/
def nestedQuery : HighlightQuery (List (List Char)) where
  all _ text := [⟨⟨0, Rope.lenBytes text⟩, 0, "string"⟩,
    ⟨⟨0, 1⟩, 1, "keyword"⟩, ⟨⟨2, 3⟩, 2, "number"⟩]
  captures _ text range := [⟨⟨0, Rope.lenBytes text⟩, 0, "string"⟩,
    ⟨⟨0, 1⟩, 1, "keyword"⟩, ⟨⟨2, 3⟩, 2, "number"⟩].filter
      (range.meets ·.range)

theorem nestedQuery_documented : nestedQuery.Documented where
  ordered _ text c hc := by
    simp only [nestedQuery, List.mem_cons, List.not_mem_nil, or_false] at hc
    rcases hc with rfl | rfl | rfl <;> simp
  captures_meeting _ text range _ := by
    simp only [nestedQuery, List.filter_filter, Bool.and_self]

/-- The text `a;b` with an error under its semicolon. -/
def editedView : EditorView :=
  { EditorView.new 0 [] with
    buffer := ParsedBuffer.editedBuffer.toBuffer
    analysis := some (ParsedBuffer.editedBuffer.revision,
      ⟨[], [⟨⟨1, 2⟩, .syntaxError, .error, []⟩]⟩) }

/-- The number is inside of the string and begins later, the keyword begins with
it. -/
example : paintLine ParsedBuffer.semicolonParser nestedQuery id () editedView
    ParsedBuffer.editedBuffer.tree 0 1 0 =
      some [⟨1, (), Theme.hlString, none, none, none⟩,
        ⟨1, (), Theme.hlString, none, some ⟨1, some Theme.error, false⟩, none⟩,
        ⟨1, (), Theme.hlNumber, none, none, none⟩] := by
  decide

theorem painted_exact_edited :
    ∃ content runs, editedView.text.line 0 = some content ∧
      Paints () ((List.range (Rope.lenBytes content)).map fun i =>
        lookAt id
          (nestedQuery.all (ParsedBuffer.semicolonParser.parse editedView.text)
            editedView.text)
          ((editedView.currentAnalysis.map Analysis.diagnostics).getD [])
          (editedView.text.lineStartOf 0 + i)) runs ∧
      ∀ first stop, first ≤ 0 → 0 < stop → stop ≤ editedView.text.lenLines →
        paintLine ParsedBuffer.semicolonParser nestedQuery id () editedView
          ParsedBuffer.editedBuffer.tree first stop 0 = some runs := by
  have hparser : ParsedBuffer.semicolonParser.Incremental :=
    ⟨fun _ _ _ _ => rfl⟩
  have hanalysis : ∀ a, editedView.currentAnalysis = some a →
      ∀ d ∈ a.diagnostics, d.range.start ≤ d.range.stop := by
    intro a ha
    obtain rfl : _ = a := Option.some.inj ha
    simp
  exact painted_exact hparser nestedQuery_documented
    ParsedBuffer.editedBuffer_reachable hanalysis (by decide)

end Tempr.Ui
