import Tempr.Editor.Motion

/-!
# Arrow keys

Plain left and right move every cursor by one grapheme and collapse a selection
to its edge. Which edge is found by moving the head: if it has come to an earlier
place it is the start, and else the end.
-/

namespace Tempr.Editor

/-- Move the head; keep the anchor when `extend`, else collapse onto the head. -/
def Selection.withHead (s : Selection) (head : ℕ) (extend : Bool) : Selection :=
  ⟨if extend then s.anchor else head, head⟩

/-- The editor's text and its selections. -/
structure EditorView where
  buffer : Buffer
  selections : List Selection

namespace EditorView

def setSelections (view : EditorView) (sels : List Selection) : EditorView :=
  { view with
    selections := if sels.isEmpty then [Selection.cursor 0] else normalize sels }

/-- Where a motion takes one selection. -/
def moveOne (extend collapseToEdge : Bool) (f : ℕ → ℕ) (s : Selection) :
    Selection :=
  let target :=
    if collapseToEdge && !extend && !s.isEmpty then
      if f s.head < s.head then s.start else s.stop
    else f s.head
  s.withHead target extend

/-- Apply a motion to every selection head. -/
def moveEach (view : EditorView) (extend collapseToEdge : Bool) (f : ℕ → ℕ) :
    EditorView :=
  view.setSelections (view.selections.map (moveOne extend collapseToEdge f))

def moveLeft (g : Graphemes) (view : EditorView) : EditorView :=
  view.moveEach false true (view.buffer.rope.prevGraphemeBoundary g)

def moveRight (g : Graphemes) (view : EditorView) : EditorView :=
  view.moveEach false true (view.buffer.rope.nextGraphemeBoundary g)

/-! ## Collapsing -/

variable {s : Selection}

theorem moveOne_collapse (hne : s.isEmpty = false) (f : ℕ → ℕ) :
    moveOne false true f s =
      Selection.cursor (if f s.head < s.head then s.start else s.stop) := by
  simp [moveOne, hne, Selection.withHead, Selection.cursor]

theorem setSelections_cursor (view : EditorView) (o : ℕ) :
    (view.setSelections [Selection.cursor o]).selections =
      [Selection.cursor o] := by
  simp [setSelections, normalize, mergeSorted]

variable {rope : Rope}

theorem start_ne_stop (hne : s.isEmpty = false) : s.start ≠ s.stop := by
  intro heq
  rw [(Selection.isEmpty_iff s).2 heq] at hne
  cases hne

/-- Left collapses to the start unless the head is at the start of the text. -/
theorem moveOne_prev_iff (g : Graphemes) (hvalid : s.Valid rope)
    (hne : s.isEmpty = false) :
    moveOne false true (rope.prevGraphemeBoundary g) s =
        Selection.cursor s.start ↔ s.head ≠ 0 := by
  rw [moveOne_collapse hne]
  by_cases hhead : s.head = 0
  · have hnot : ¬rope.prevGraphemeBoundary g s.head < s.head := by omega
    rw [if_neg hnot]
    refine iff_of_false (fun heq => ?_) (fun h => h hhead)
    exact start_ne_stop hne (congrArg Selection.head heq).symm
  · rw [if_pos (Rope.prevGraphemeBoundary_lt g hvalid.head_boundary hhead)]
    exact iff_of_true rfl hhead

theorem moveOne_next (g : Graphemes) (hvalid : s.Valid rope)
    (hne : s.isEmpty = false) :
    moveOne false true (rope.nextGraphemeBoundary g) s =
      Selection.cursor s.stop := by
  have hle := Rope.le_nextGraphemeBoundary g hvalid.head_boundary
  rw [moveOne_collapse hne, if_neg (Nat.not_lt.2 hle)]

/-- Plain left and right collapse the selection to its own edges, beside other
selections and alone. -/
structure ArrowsCollapse (g : Graphemes) (b : Buffer) (s : Selection) :
    Prop where
  left : moveOne false true (b.rope.prevGraphemeBoundary g) s =
    Selection.cursor s.start
  right : moveOne false true (b.rope.nextGraphemeBoundary g) s =
    Selection.cursor s.stop
  left_alone : (moveLeft g ⟨b, [s]⟩).selections = [Selection.cursor s.start]
  right_alone : (moveRight g ⟨b, [s]⟩).selections = [Selection.cursor s.stop]

/-- The arrow keys collapse a selection to its edges, unless its head is at the
start of the text. -/
theorem arrowsCollapse_iff (g : Graphemes) (b : Buffer) (s : Selection)
    (hvalid : s.Valid b.rope) (hne : s.isEmpty = false) :
    ArrowsCollapse g b s ↔ s.head ≠ 0 := by
  have hleft := moveOne_prev_iff g hvalid hne
  have hright := moveOne_next g hvalid hne
  constructor
  · exact fun h => hleft.1 h.left
  · intro hhead
    refine ⟨hleft.2 hhead, hright, ?_, ?_⟩
    · rw [moveLeft, moveEach, List.map_singleton, hleft.2 hhead]
      exact setSelections_cursor _ _
    · rw [moveRight, moveEach, List.map_singleton, hright]
      exact setSelections_cursor _ _

/-! ## A head at the start of the text -/

/-- Left on the selection of `abc` from its end to its start leaves the cursor at
the end. -/
theorem moveLeft_reversed :
    (moveLeft charGraphemes ⟨.new 0 "abc".toList, [⟨3, 0⟩]⟩).selections =
        [Selection.cursor 3] ∧
      ¬ArrowsCollapse charGraphemes (.new 0 "abc".toList) ⟨3, 0⟩ := by
  have hmoved : (moveLeft charGraphemes
      ⟨.new 0 "abc".toList, [⟨3, 0⟩]⟩).selections = [Selection.cursor 3] := by
    decide
  refine ⟨hmoved, fun h => ?_⟩
  have heq := h.left_alone
  rw [hmoved] at heq
  revert heq
  decide

theorem arrowsCollapse_iff_forward :
    ArrowsCollapse charGraphemes (.new 0 "abc".toList) ⟨0, 3⟩ := by
  refine (arrowsCollapse_iff charGraphemes (.new 0 "abc".toList) ⟨0, 3⟩ ?_
    (by decide)).2 (by decide)
  exact ⟨by decide, by decide, by decide⟩

end EditorView

end Tempr.Editor
