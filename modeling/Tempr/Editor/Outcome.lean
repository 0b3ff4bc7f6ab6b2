import Tempr.Editor.Batch
import Tempr.Editor.EditOps

/-!
# Outcomes of editing operations

Every operation hands the buffer a batch whose ranges are in the order of the
text.  Such a batch is accepted and splices its ranges; what remains for each
operation is that the selections it computes fit the spliced text.
-/

namespace Tempr.Editor

open Tempr.Support

/-- Selections that an operation may return: within the text, on character
boundaries, sorted and pairwise non-overlapping. -/
structure ValidSelections (rope : Rope) (selections : List Selection) :
    Prop where
  valid : ∀ s ∈ selections, s.Valid rope
  ordered : selections.Pairwise fun a b => a.stop ≤ b.start

/-- The operation returned `Ok`, and its selections fit the new text. -/
def Succeeds (result : Buffer × Except EditError EditOutcome) : Prop :=
  ∃ outcome, result.2 = .ok outcome ∧
    ValidSelections result.1.rope outcome.selections

theorem normalize_validSelections {rope : Rope} {selections : List Selection}
    (h : ∀ s ∈ selections, s.Valid rope) :
    ValidSelections rope (normalize selections) :=
  ⟨normalize_valid h,
    (normalize_apart selections).imp Selection.Apart.le⟩

/-- Edits in the order of the text. -/
structure InOrder (rope : Rope) (edits : List Edit) : Prop where
  valid : ∀ e ∈ edits, e.range.Valid rope
  chain : edits.Pairwise fun a b => a.range.stop ≤ b.range.start

theorem InOrder.acceptable {rope : Rope} {edits : List Edit}
    (h : InOrder rope edits) : Acceptable rope edits := by
  refine ⟨h.valid, h.chain.imp ?_⟩
  rintro a b hle ⟨-, hlt⟩
  omega

theorem InOrder.ascending_eq {rope : Rope} {edits : List Edit}
    (h : InOrder rope edits) : ascending edits = edits :=
  ascending_of_pairwise (fun e he => (h.valid e he).ordered) h.chain

namespace Buffer

/-- A batch in the order of the text is accepted and splices its ranges. -/
theorem applyWithSelections_spec {b : Buffer} {edits : List Edit}
    (h : InOrder b.rope edits) (revision : ℕ)
    (before after : List Selection) :
    (∃ id, (b.applyWithSelections revision edits before after).2 =
        .ok ⟨id, after⟩) ∧
      Splices Char.utf8Size 0 (edits.map Edit.replacement) b.rope
        (b.applyWithSelections revision edits before after).1.rope := by
  have hacc := h.acceptable
  constructor
  · have hok := (editInner_isOk_iff b edits revision
      (some ⟨before, after⟩)).mpr hacc
    rw [applyWithSelections, editWithSelections]
    rcases hresult : b.editInner revision edits (some ⟨before, after⟩) with
      ⟨b', err | id⟩
    · simp [hresult, Except.isOk, Except.toBool] at hok
    · exact ⟨id, rfl⟩
  · have hsplices := applyEdits_splices hacc []
    rw [h.ascending_eq, applyEdits_eq_substitute hacc,
      ← editInner_rope hacc revision (some ⟨before, after⟩)] at hsplices
    exact hsplices

/-- An operation succeeds when its selections fit the spliced text. -/
theorem succeeds_applyWithSelections {b : Buffer} {edits : List Edit}
    (h : InOrder b.rope edits) (revision : ℕ)
    (before after : List Selection)
    (hafter : ∀ rope,
      Splices Char.utf8Size 0 (edits.map Edit.replacement) b.rope rope →
        ValidSelections rope after) :
    Succeeds (b.applyWithSelections revision edits before after) := by
  obtain ⟨⟨id, hid⟩, hsplices⟩ :=
    applyWithSelections_spec h revision before after
  exact ⟨⟨id, after⟩, hid, hafter _ hsplices⟩

end Buffer

/-! ## Typing and deleting -/

theorem Selection.Valid.range {rope : Rope} {s : Selection}
    (h : s.Valid rope) : s.range.Valid rope :=
  ⟨s.start_le_stop, h.inBounds, h.start_boundary, h.stop_boundary⟩

theorem cursor_valid {rope : Rope} {o : ℕ} (h : rope.IsCharBoundary o) :
    (Selection.cursor o).Valid rope :=
  .of_ends h h

/-- The edits that replace each of the normalised selections by a text. -/
theorem inOrder_replace {rope : Rope} {sels : List Selection}
    (hvalid : ∀ s ∈ sels, s.Valid rope)
    (hapart : sels.Pairwise Selection.Apart) (text : List Char) :
    InOrder rope (sels.map fun s => ⟨s.range, text⟩) := by
  constructor
  · intro e he
    obtain ⟨s, hs, rfl⟩ := List.mem_map.mp he
    exact (hvalid s hs).range
  · exact List.pairwise_map.mpr (hapart.imp Selection.Apart.le)

/-- Each cursor stands behind the text that replaced its selection.  `front`
is the new text in front of the selections that remain. -/
theorem cursorsAfterReplacements_valid {sels : List Selection}
    {text : List Char} {base : ℕ} {xs ys : Rope}
    (h : Splices Char.utf8Size base
      (sels.map fun s => ⟨s.start, s.stop, text⟩) xs ys)
    {front : Rope} {shift : ℤ}
    (hfront : (front.lenBytes : ℤ) = base + shift) :
    ∀ c ∈ cursorsAfterReplacements (Rope.lenBytes text) shift sels,
      c.Valid (front ++ ys) := by
  induction sels generalizing base xs ys front shift with
  | nil => simp [cursorsAfterReplacements]
  | cons s sels ih =>
      cases h with
      | @cons _ _ _ a m b b' hstart hstop tail =>
          change base + Rope.lenBytes a = s.start at hstart
          change s.start + Rope.lenBytes m = s.stop at hstop
          rw [cursorsAfterReplacements, List.forall_mem_cons]
          constructor
          · have hoffset : ((s.start : ℤ) + shift).toNat + Rope.lenBytes text =
                Rope.lenBytes (front ++ (a ++ text)) := by
              simp only [Rope.lenBytes_append]
              omega
            simp only [hoffset]
            refine cursor_valid ⟨front ++ (a ++ text), b', by simp, rfl⟩
          · have hfront' : (Rope.lenBytes (front ++ a ++ text) : ℤ) =
                s.stop + (shift + ((Rope.lenBytes text : ℤ) - s.range.len)) := by
              simp only [Rope.lenBytes_append, ByteRange.len, Selection.range]
              omega
            have hrest := ih tail hfront'
            simpa [List.append_assoc] using hrest

namespace Buffer

theorem insertAt_succeeds (b : Buffer) (revision : ℕ)
    {selections : List Selection} (h : ∀ s ∈ selections, s.Valid b.rope)
    (text : List Char) :
    Succeeds (b.insertAt revision selections text) := by
  have horder := inOrder_replace (normalize_valid h)
    (normalize_apart selections) text
  refine succeeds_applyWithSelections horder revision _ _ ?_
  intro rope hsplices
  rw [List.map_map] at hsplices
  have hnothing : (Rope.lenBytes [] : ℤ) = (0 : ℕ) + 0 := rfl
  apply normalize_validSelections
  simpa using cursorsAfterReplacements_valid hsplices hnothing

theorem deleteRanges_succeeds (b : Buffer) (revision : ℕ)
    {ranges : List Selection} (h : ∀ s ∈ ranges, s.Valid b.rope)
    (before : List Selection) :
    Succeeds (b.deleteRanges revision ranges before) := by
  have horder := inOrder_replace (normalize_valid h)
    (normalize_apart ranges) []
  refine succeeds_applyWithSelections horder revision _ _ ?_
  intro rope hsplices
  rw [List.map_map] at hsplices
  have hnothing : (Rope.lenBytes [] : ℤ) = (0 : ℕ) + 0 := rfl
  apply normalize_validSelections
  simpa using cursorsAfterReplacements_valid hsplices hnothing

theorem backspace_succeeds (g : Graphemes) (b : Buffer) (revision : ℕ)
    {selections : List Selection} (h : ∀ s ∈ selections, s.Valid b.rope) :
    Succeeds (b.backspace g revision selections) := by
  apply deleteRanges_succeeds
  intro s hs
  obtain ⟨t, ht, rfl⟩ := List.mem_map.mp hs
  have ht := normalize_valid h t ht
  split
  · exact .of_ends (Rope.prevGraphemeBoundary_isBoundary g ht.head_boundary)
      ht.head_boundary
  · exact ht

theorem deleteForward_succeeds (g : Graphemes) (b : Buffer) (revision : ℕ)
    {selections : List Selection} (h : ∀ s ∈ selections, s.Valid b.rope) :
    Succeeds (b.deleteForward g revision selections) := by
  apply deleteRanges_succeeds
  intro s hs
  obtain ⟨t, ht, rfl⟩ := List.mem_map.mp hs
  have ht := normalize_valid h t ht
  split
  · exact .of_ends ht.head_boundary
      (Rope.nextGraphemeBoundary_isBoundary g ht.head_boundary)
  · exact ht

end Buffer

end Tempr.Editor
