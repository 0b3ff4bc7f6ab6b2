import Mathlib.Data.Prod.Lex
import Tempr.Editor.IncrementalSyntax
import Tempr.Support.Overlay

/-!
# Highlights

The highlight query captures nodes of the syntax tree.  The captures of a byte
range are sorted, and of those of one node the last decides how it is shown.
What a byte is shown as does not depend on the range that was asked for: it is
decided by the captures of the whole text that cover it.
-/

namespace Tempr.Editor

open Tempr.Support
open Tempr.Support.Overlay (byKey)

/-- Highlight classes. -/
inductive HighlightKind
  | keyword
  | keywordOperator
  | string
  | number
  | boolean
  | comment
  | functionCall
  | type
  | variableName
  | field
  | parameter
  | operator
  | punctuation
  | other
  deriving DecidableEq, Repr

/-- Map a capture name of the query to a kind. -/
def HighlightKind.fromCapture (name : String) : HighlightKind :=
  if name ∈ ["keyword", "conditional", "attribute", "storageclass"] then
    .keyword
  else if name = "keyword.operator" then .keywordOperator
  else if name = "string" then .string
  else if name ∈ ["number", "float"] then .number
  else if name = "boolean" then .boolean
  else if name = "comment" then .comment
  else if name = "function.call" then .functionCall
  else if name ∈ ["type", "type.builtin", "type.qualifier"] then .type
  else if name = "variable" then .variableName
  else if name = "field" then .field
  else if name = "parameter" then .parameter
  else if name = "operator" then .operator
  else if name ∈ ["punctuation.delimiter", "punctuation.bracket"] then
    .punctuation
  else .other

structure Highlight where
  range : ByteRange
  kind : HighlightKind
  deriving DecidableEq, Repr

/-- Have the ranges bytes in common, or does an empty one lie inside of the
other? -/
def ByteRange.meets (r s : ByteRange) : Bool :=
  r.start < s.stop && s.start < r.stop

theorem ByteRange.meets_of_contains {r s : ByteRange} {i : ℕ}
    (hr : r.contains i) (hs : s.contains i) : r.meets s := by
  simp only [contains, meets, Bool.and_eq_true, decide_eq_true_eq] at *
  omega

/-- A node that a pattern of the query captures under a name. -/
structure Capture where
  range : ByteRange
  pattern : ℕ
  name : String
  deriving DecidableEq, Repr

namespace Capture

/-- What captures are sorted by. -/
def key (c : Capture) : ℕ ×ₗ ℕ ×ₗ ℕ :=
  toLex (c.range.start, toLex (c.range.stop, c.pattern))

def kind (c : Capture) : HighlightKind := .fromCapture c.name

theorem start_le_of_key_le {c c' : Capture} (h : c.key ≤ c'.key) :
    c.range.start ≤ c'.range.start := by
  rcases Prod.Lex.toLex_le_toLex.mp h with hlt | ⟨heq, -⟩
  · exact hlt.le
  · exact heq.le

/-- The capture that a byte is shown by: of those that cover it, the one that
begins last; of these, the one that ends last; of these, the last of the last
pattern. -/
def topmost (captures : List Capture) (i : ℕ) : Option Capture :=
  (captures.filter fun c => c.range.contains i).reverse.argmax key

theorem topmost_spec {captures : List Capture} {i : ℕ} {c : Capture}
    (h : topmost captures i = some c) :
    c ∈ captures ∧ c.range.contains i ∧
      ∀ c' ∈ captures, c'.range.contains i → c'.key ≤ c.key := by
  obtain ⟨hmem, hlargest, -⟩ := List.argmax_eq_some_iff.mp h
  rw [List.mem_reverse, List.mem_filter] at hmem
  refine ⟨hmem.1, hmem.2, fun c' hc' hcovers => hlargest c' ?_⟩
  rw [List.mem_reverse, List.mem_filter]
  exact ⟨hc', hcovers⟩

end Capture

/-! ## Captures of a tree -/

/-- The highlight query of the parsing library. -/
structure HighlightQuery (Tree : Type) where
  /-- what the query captures in a tree, from the start to the end -/
  all : Tree → Rope → List Capture
  /-- what it captures when it is run over a range of bytes -/
  captures : Tree → Rope → ByteRange → List Capture

/-- The ranges of nodes are ordered, and over a range of bytes the query finds
all captures that meet it, in their order; it may find more. -/
structure HighlightQuery.Documented {Tree : Type} (q : HighlightQuery Tree) :
    Prop where
  ordered : ∀ tree text, ∀ c ∈ q.all tree text, c.range.start ≤ c.range.stop
  captures_meeting : ∀ tree text range, range.start < range.stop →
    (q.captures tree text range).filter (range.meets ·.range) =
      (q.all tree text).filter (range.meets ·.range)

/-- Show a capture: one of the node that was shown last replaces its kind. -/
def pushHighlight (out : List Highlight) (c : Capture) : List Highlight :=
  match out.getLast? with
  | some last =>
      if last.range = c.range then out.dropLast ++ [{ last with kind := c.kind }]
      else out ++ [⟨c.range, c.kind⟩]
  | none => out ++ [⟨c.range, c.kind⟩]

/-- One highlight for each captured node of a range, in the order of the
document. -/
def highlights {Tree : Type} (q : HighlightQuery Tree) (tree : Tree)
    (text : Rope) (range : ByteRange) : List Highlight :=
  if range.isEmpty then []
  else
    let raw := (q.captures tree text range).insertionSort (byKey Capture.key)
    raw.foldl pushHighlight []

/-- Highlights of a byte range of the present text. -/
def ParsedBuffer.highlights {Tree : Type} (ts : TreeSitter Tree)
    (q : HighlightQuery Tree) (b : ParsedBuffer Tree) (range : ByteRange) :
    ParsedBuffer Tree × List Highlight :=
  let rope := b.rope
  let (b, tree) := b.syntaxTree ts
  (b, Editor.highlights q tree rope range)

/-! ## What is shown at a byte -/

/-- The last highlight that covers a byte. -/
def kindAt (shown : List Highlight) (i : ℕ) : Option HighlightKind :=
  ((shown.filter fun h => h.range.contains i).getLast?).map Highlight.kind

@[simp] theorem pushHighlight_nil (c : Capture) :
    pushHighlight [] c = [⟨c.range, c.kind⟩] :=
  rfl

@[simp] theorem pushHighlight_concat (out : List Highlight) (last : Highlight)
    (c : Capture) :
    pushHighlight (out ++ [last]) c =
      if last.range = c.range then out ++ [⟨c.range, c.kind⟩]
      else out ++ [last] ++ [⟨c.range, c.kind⟩] := by
  by_cases hsame : last.range = c.range
  · simp [pushHighlight, hsame]
  · simp [pushHighlight, hsame]

theorem kindAt_concat (out : List Highlight) (h : Highlight) (i : ℕ) :
    kindAt (out ++ [h]) i =
      if h.range.contains i then some h.kind else kindAt out i := by
  cases hcovers : h.range.contains i <;> simp [kindAt, hcovers]

theorem kindAt_pushHighlight (out : List Highlight) (c : Capture) (i : ℕ) :
    kindAt (pushHighlight out c) i =
      if c.range.contains i then some c.kind else kindAt out i := by
  cases out using List.reverseRecOn with
  | nil => exact kindAt_concat [] ⟨c.range, c.kind⟩ i
  | append_singleton out last =>
      rw [pushHighlight_concat]
      split
      case isTrue hsame =>
        rw [kindAt_concat, kindAt_concat, hsame]
        cases c.range.contains i <;> rfl
      case isFalse => rw [kindAt_concat]

theorem kindAt_foldl (captures : List Capture) (i : ℕ) :
    kindAt (captures.foldl pushHighlight []) i =
      ((captures.filter fun c => c.range.contains i).getLast?).map
        Capture.kind := by
  induction captures using List.reverseRecOn with
  | nil => rfl
  | append_singleton captures c ih =>
      rw [List.foldl_concat, kindAt_pushHighlight, ih]
      cases hcovers : c.range.contains i <;> simp [hcovers]

/-- The shown ranges are those of captures, in their order. -/
theorem foldl_pushHighlight_sublist (captures : List Capture) :
    ((captures.foldl pushHighlight []).map Highlight.range).Sublist
      (captures.map Capture.range) := by
  induction captures using List.reverseRecOn with
  | nil => exact List.Sublist.refl _
  | append_singleton captures c ih =>
      rw [List.foldl_concat, List.map_append]
      generalize captures.foldl pushHighlight [] = out at ih ⊢
      cases out using List.reverseRecOn with
      | nil => simp
      | append_singleton out last =>
          rw [pushHighlight_concat]
          split
          case isTrue hsame =>
            have hsub := ih.trans (List.sublist_append_left _ [c.range])
            simpa [hsame] using hsub
          case isFalse =>
            rw [List.map_append]
            exact ih.append (List.Sublist.refl _)

section Query

variable {Tree : Type} {q : HighlightQuery Tree} {tree : Tree} {text : Rope}
  {range : ByteRange}

/-- Highlights come in the order in which they begin. -/
theorem highlights_sorted :
    (highlights q tree text range).Pairwise (byKey (·.range.start)) := by
  rw [highlights]
  split
  case isTrue => exact List.Pairwise.nil
  case isFalse =>
    have hsorted := List.pairwise_insertionSort (byKey Capture.key)
      (q.captures tree text range)
    have hstarts : (((q.captures tree text range).insertionSort
        (byKey Capture.key)).map Capture.range).Pairwise (byKey (·.start)) :=
      List.pairwise_map.mpr (hsorted.imp Capture.start_le_of_key_le)
    have hshown := hstarts.sublist (foldl_pushHighlight_sublist _)
    rw [List.pairwise_map] at hshown
    exact hshown

/-- What meets the range and is shown was captured. -/
theorem HighlightQuery.Documented.ordered_of_meets (hq : q.Documented)
    {h : Highlight} (hh : h ∈ highlights q tree text range)
    (hmeets : range.meets h.range) : h.range.start ≤ h.range.stop := by
  rw [highlights] at hh
  split at hh
  case isTrue => cases hh
  case isFalse hrange =>
    have hmem := (foldl_pushHighlight_sublist _).subset
      (List.mem_map_of_mem hh)
    obtain ⟨c, hc, hsame⟩ := List.mem_map.mp hmem
    rw [List.mem_insertionSort] at hc
    have hlt : range.start < range.stop := by
      simpa [ByteRange.isEmpty] using hrange
    have hkept : c ∈ (q.captures tree text range).filter
        (range.meets ·.range) :=
      List.mem_filter.mpr ⟨hc, by rwa [hsame]⟩
    rw [hq.captures_meeting tree text range hlt] at hkept
    rw [← hsame]
    exact hq.ordered tree text c (List.mem_of_mem_filter hkept)

/-- Within the range, a byte is shown by the capture of the whole text that is
topmost there. -/
theorem HighlightQuery.Documented.kindAt_highlights (hq : q.Documented) {i : ℕ}
    (hi : range.contains i) :
    kindAt (highlights q tree text range) i =
      (Capture.topmost (q.all tree text) i).map Capture.kind := by
  have hlt : range.start < range.stop := by
    simp only [ByteRange.contains, Bool.and_eq_true, decide_eq_true_eq] at hi
    omega
  have hempty : range.isEmpty = false := by simpa [ByteRange.isEmpty] using hlt
  have hcover : ∀ captures : List Capture,
      captures.filter (fun c => c.range.contains i) =
        (captures.filter (range.meets ·.range)).filter
          fun c => c.range.contains i := by
    intro captures
    rw [List.filter_filter]
    refine List.filter_congr fun c _ => ?_
    cases hc : c.range.contains i with
    | false => rfl
    | true => simp [ByteRange.meets_of_contains hi hc]
  rw [highlights, if_neg (by simp [hempty]), kindAt_foldl,
    Overlay.filter_insertionSort_byKey, hcover,
    hq.captures_meeting tree text range hlt, ← hcover,
    Overlay.getLast?_insertionSort, Capture.topmost]

end Query

end Tempr.Editor
