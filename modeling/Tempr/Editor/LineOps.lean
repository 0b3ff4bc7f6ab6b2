import Tempr.Editor.Blocks

/-!
# Deleting and duplicating lines

Both operations edit each block at its own place, so the selections they
return differ from the old ones by what was deleted or inserted before them.
-/

namespace Tempr.Editor

open Tempr.Support

/-! ## Reading ranges -/

theorem Buffer.slice_of_valid {b : Buffer} {r : ByteRange}
    (h : r.Valid b.rope) :
    b.slice r = .ok (b.rope.byteSlice r.start r.stop) := by
  rw [Buffer.slice, Rope.charRange_of_valid h]
  rfl

theorem mapM_ok {α β ε : Type*} {f : α → Except ε β} {g : α → β}
    {xs : List α} (h : ∀ x ∈ xs, f x = .ok (g x)) :
    xs.mapM f = .ok (xs.map g) := by
  induction xs with
  | nil => rfl
  | cons x xs ih =>
      rw [List.forall_mem_cons] at h
      rw [List.mapM_cons, h.1, ih h.2]
      rfl

/-- A boundary inside a range cuts the text of the range. -/
theorem ByteRange.Valid.cut {rope : Rope} {r : ByteRange} (h : r.Valid rope)
    {o : ℕ} (ho : rope.IsCharBoundary o) (hstart : r.start ≤ o)
    (hstop : o ≤ r.stop) :
    ∃ t u, rope.byteSlice r.start r.stop = t ++ u ∧
      Rope.lenBytes t = o - r.start ∧ Rope.lenBytes u = r.stop - o := by
  obtain ⟨a, m, b, rfl, ha, hm⟩ := h.parts
  have hslice : Rope.byteSlice (a ++ m ++ b) r.start r.stop = m := by
    rw [← ha, ← hm]
    exact Rope.byteSlice_parts a m b
  have hbound : IsBoundary Char.utf8Size m (o - r.start) := by
    have hright : IsBoundary Char.utf8Size (m ++ b) (o - r.start) := by
      rw [← isBoundary_append_right_iff Rope.utf8Size_pos a,
        ← List.append_assoc]
      have hsum : span Char.utf8Size a + (o - r.start) = o := by
        change Rope.lenBytes a + (o - r.start) = o
        omega
      rw [hsum]
      exact ho
    refine (isBoundary_append_left_iff Rope.utf8Size_pos m b ?_).mp hright
    change o - r.start ≤ Rope.lenBytes m
    omega
  obtain ⟨t, u, rfl, ht⟩ := hbound
  change Rope.lenBytes t = _ at ht
  refine ⟨t, u, hslice, ht, ?_⟩
  rw [Rope.lenBytes_append] at hm
  omega

/-! ## Deleting lines -/

/-- Each cursor stands where its block was.  `front` is the new text in front
of the blocks that remain. -/
theorem cursorsAfterDeletions_valid {blocks : List (ByteRange × Bool)}
    {base : ℕ} {xs ys : Rope}
    (h : Splices Char.utf8Size base
      (blocks.map fun b => ⟨b.1.start, b.1.stop, []⟩) xs ys)
    {front : Rope} {shift : ℕ} (hfront : front.lenBytes + shift = base) :
    ValidSelections (front ++ ys) (cursorsAfterDeletions shift blocks) ∧
      ∀ c ∈ cursorsAfterDeletions shift blocks, front.lenBytes ≤ c.start := by
  induction blocks generalizing base xs ys front shift with
  | nil =>
      simp only [cursorsAfterDeletions]
      exact ⟨⟨by simp, List.Pairwise.nil⟩, by simp⟩
  | cons block blocks ih =>
      obtain ⟨r, hasBreak⟩ := block
      cases h with
      | @cons _ _ _ a m b b' hstart hstop tail =>
          change base + Rope.lenBytes a = r.start at hstart
          change r.start + Rope.lenBytes m = r.stop at hstop
          have hfront' : Rope.lenBytes (front ++ a) + (shift + r.len) =
              r.stop := by
            simp only [Rope.lenBytes_append, ByteRange.len]
            omega
          have hrest := ih tail hfront'
          have hoffset : r.start - shift = Rope.lenBytes (front ++ a) := by
            rw [Rope.lenBytes_append]
            omega
          have htext : front ++ (a ++ [] ++ b') = front ++ a ++ b' := by simp
          simp only [cursorsAfterDeletions, hoffset]
          rw [htext]
          refine ⟨⟨?_, ?_⟩, ?_⟩
          · rw [List.forall_mem_cons]
            exact ⟨cursor_valid (isBoundary_append_left _ _), hrest.1.valid⟩
          · rw [List.pairwise_cons]
            exact ⟨fun c hc => by simpa using hrest.2 c hc, hrest.1.ordered⟩
          · rw [List.forall_mem_cons]
            refine ⟨?_, fun c hc => ?_⟩
            · simp
            · have := hrest.2 c hc
              rw [Rope.lenBytes_append] at this
              omega

namespace Buffer

theorem deleteLines_inOrder {rope : Rope}
    {blocks : List (ByteRange × Bool)} (h : AreBlocks rope blocks) :
    InOrder rope (blocks.map fun block => ⟨block.1, []⟩) := by
  constructor
  · intro e he
    obtain ⟨block, hblock, rfl⟩ := List.mem_map.mp he
    exact (h.each block hblock).valid
  · exact List.pairwise_map.mpr (h.apart.imp fun hlt => hlt.le)

theorem deleteLines_succeeds (b : Buffer) (revision : ℕ)
    {selections : List Selection} (h : ∀ s ∈ selections, s.Valid b.rope) :
    Succeeds (b.deleteLines revision selections) := by
  obtain ⟨hblocks, -⟩ := lineBlocks_spec h
  refine succeeds_applyWithSelections (deleteLines_inOrder hblocks) revision
    _ _ ?_
  intro rope hsplices
  rw [List.map_map] at hsplices
  have hnothing : Rope.lenBytes [] + 0 = 0 := rfl
  simpa using (cursorsAfterDeletions_valid hsplices hnothing).1

end Buffer

/-! ## Duplicating lines -/

/-- A copy of the text of a range: a boundary inside the range cuts the copy
at the same distance from the end. -/
structure IsCopy (rope : Rope) (copy : ByteRange × List Char) : Prop where
  ordered : copy.1.start ≤ copy.1.stop
  inBounds : copy.1.stop ≤ rope.lenBytes
  cut : ∀ o, rope.IsCharBoundary o → copy.1.start ≤ o → o ≤ copy.1.stop →
    ∃ t u, copy.2 = t ++ u ∧ Rope.lenBytes u = copy.1.stop - o

/-- The selection lies in the range and starts in front of its end, unless the
range reaches the end of the text. -/
structure Holds (rope : Rope) (copy : ByteRange × List Char) (s : Selection) :
    Prop where
  start_le : copy.1.start ≤ s.start
  stop_le : s.stop ≤ copy.1.stop
  start_lt : s.start < copy.1.stop ∨ copy.1.stop = rope.lenBytes

/-- The copies that remain to be passed while the selections move, with the
new text in front of them. -/
structure Pending (rope text : Rope) (shift : ℕ)
    (copies : List (ByteRange × List Char)) : Prop where
  each : ∀ c ∈ copies, IsCopy rope c
  apart : copies.Pairwise fun a b => a.1.stop < b.1.start
  cut : ∃ front base xs ys, text = front ++ ys ∧
    Rope.lenBytes front = base + shift ∧
    Splices Char.utf8Size base
      (copies.map fun c => ⟨c.1.stop, c.1.stop, c.2⟩) xs ys

section Copies

variable {rope text : Rope} {shift : ℕ}

theorem Pending.tail {c : ByteRange × List Char}
    {copies : List (ByteRange × List Char)}
    (h : Pending rope text shift (c :: copies)) :
    Pending rope text (shift + Rope.lenBytes c.2) copies := by
  obtain ⟨front, base, xs, ys, rfl, hfront, hsplices⟩ := h.cut
  refine ⟨fun d hd => h.each d (List.mem_cons_of_mem _ hd),
    (List.pairwise_cons.mp h.apart).2, ?_⟩
  cases hsplices with
  | @cons _ _ _ a m b b' hstart hstop tail =>
      change base + Rope.lenBytes a = c.1.stop at hstart
      refine ⟨front ++ a ++ c.2, c.1.stop, b, b', by simp, ?_, tail⟩
      simp only [Rope.lenBytes_append]
      omega

/-- Only the last copy may reach the end of the text. -/
theorem Pending.lt_lenBytes {c d : ByteRange × List Char}
    {copies : List (ByteRange × List Char)}
    (h : Pending rope text shift (c :: copies)) (hd : d ∈ copies) :
    c.1.stop < rope.lenBytes := by
  have hcd := (List.pairwise_cons.mp h.apart).1 d hd
  have hcopy := h.each d (List.mem_cons_of_mem _ hd)
  have := hcopy.ordered
  have := hcopy.inBounds
  omega

/-- `skipBlocks` stops at the copy that holds the selection. -/
theorem skipBlocks_spec {copies : List (ByteRange × List Char)}
    (h : Pending rope text shift copies) {s : Selection}
    (hs : ∃ c ∈ copies, Holds rope c s) :
    ∃ shift' c rest, skipBlocks s.start shift copies = (shift', c :: rest) ∧
      Pending rope text shift' (c :: rest) ∧ Holds rope c s ∧
      shift + ((copies.head?.map fun c => Rope.lenBytes c.2).getD 0) ≤
        shift' + Rope.lenBytes c.2 ∧
      ∀ t : Selection, s.start ≤ t.start → (∃ d ∈ copies, Holds rope d t) →
        ∃ d ∈ c :: rest, Holds rope d t := by
  induction copies generalizing shift with
  | nil => simp at hs
  | cons c copies ih =>
      cases copies with
      | nil =>
          obtain ⟨d, hd, hds⟩ := hs
          rw [List.mem_singleton] at hd
          subst hd
          exact ⟨shift, d, [], rfl, h, hds, by simp, fun t _ ht => ht⟩
      | cons next rest =>
          have hend := h.lt_lenBytes (d := next) (by simp)
          simp only [skipBlocks]
          by_cases hskip : c.1.stop ≤ s.start
          · -- Nothing that starts at or behind `s` lies in `c`.
            have hleave : ∀ t : Selection, s.start ≤ t.start →
                (∃ d ∈ c :: next :: rest, Holds rope d t) →
                ∃ d ∈ next :: rest, Holds rope d t := by
              rintro t ht ⟨d, hd, hdt⟩
              rcases List.mem_cons.mp hd with rfl | hd
              · have := hdt.start_lt
                omega
              · exact ⟨d, hd, hdt⟩
            rw [if_pos hskip]
            obtain ⟨shift', c', rest', heq, hpending, hholds, hle, hrest⟩ :=
              ih h.tail (hleave s le_rfl hs)
            refine ⟨shift', c', rest', heq, hpending, hholds, ?_,
              fun t ht hd => hrest t ht (hleave t ht hd)⟩
            simp only [List.head?_cons, Option.map_some,
              Option.getD_some] at hle ⊢
            omega
          · rw [if_neg hskip]
            refine ⟨shift, c, next :: rest, rfl, h, ?_, by simp,
              fun t _ ht => ht⟩
            obtain ⟨d, hd, hds⟩ := hs
            rcases List.mem_cons.mp hd with rfl | hd
            · exact hds
            · have := (List.pairwise_cons.mp h.apart).1 d hd
              have := hds.start_le
              omega

/-- A boundary of the copied range, moved onto the copy. -/
theorem Pending.boundary {c : ByteRange × List Char}
    {copies : List (ByteRange × List Char)}
    (h : Pending rope text shift (c :: copies)) {o : ℕ}
    (ho : rope.IsCharBoundary o) (hstart : c.1.start ≤ o)
    (hstop : o ≤ c.1.stop) :
    text.IsCharBoundary (o + shift + Rope.lenBytes c.2) := by
  obtain ⟨front, base, xs, ys, rfl, hfront, hsplices⟩ := h.cut
  obtain ⟨t, u, htu, hu⟩ := (h.each c (by simp)).cut o ho hstart hstop
  cases hsplices with
  | @cons _ _ _ a m b b' hs he tail =>
      change base + Rope.lenBytes a = c.1.stop at hs
      refine ⟨front ++ a ++ t, u ++ b', by simp [htu], ?_⟩
      change Rope.lenBytes (front ++ a ++ t) = _
      rw [htu]
      simp only [Rope.lenBytes_append]
      omega

theorem selection_shift (s : Selection) (k : ℕ) :
    (⟨s.anchor + k, s.head + k⟩ : Selection).start = s.start + k ∧
      (⟨s.anchor + k, s.head + k⟩ : Selection).stop = s.stop + k := by
  simp only [Selection.start, Selection.stop]
  omega

theorem selectionsOnCopies_valid {copies : List (ByteRange × List Char)}
    (h : Pending rope text shift copies) {sels : List Selection}
    (hvalid : ∀ s ∈ sels, s.Valid rope)
    (hholds : ∀ s ∈ sels, ∃ c ∈ copies, Holds rope c s)
    (hsorted : sels.Pairwise fun a b => a.stop ≤ b.start) :
    ValidSelections text (selectionsOnCopies shift copies sels) ∧
      ∀ e ∈ selectionsOnCopies shift copies sels, ∃ s ∈ sels, ∃ k,
        shift + ((copies.head?.map fun c => Rope.lenBytes c.2).getD 0) ≤ k ∧
          e.start = s.start + k := by
  induction sels generalizing shift copies with
  | nil =>
      simp only [selectionsOnCopies]
      exact ⟨⟨by simp, List.Pairwise.nil⟩, by simp⟩
  | cons s sels ih =>
      rw [List.forall_mem_cons] at hvalid hholds
      rw [List.pairwise_cons] at hsorted
      obtain ⟨shift', c, rest, heq, hpending, hc, hle, hleave⟩ :=
        skipBlocks_spec h hholds.1
      have hsle := s.start_le_stop
      have hs1 := hc.start_le
      have hs2 := hc.stop_le
      obtain ⟨hrest, hlower⟩ := ih hpending hvalid.2
        (fun t ht => hleave t (by
          have := hsorted.1 t ht
          omega) (hholds.2 t ht))
        hsorted.2
      simp only [selectionsOnCopies, heq, List.head?_cons, Option.map_some,
        Option.getD_some, Nat.add_assoc] at hlower ⊢
      obtain ⟨hstart, hstop⟩ := selection_shift s (shift' + Rope.lenBytes c.2)
      have hmoved : ∀ o, rope.IsCharBoundary o → s.start ≤ o → o ≤ s.stop →
          text.IsCharBoundary (o + (shift' + Rope.lenBytes c.2)) := by
        intro o ho h1 h2
        rw [← Nat.add_assoc]
        exact hpending.boundary ho (by omega) (by omega)
      refine ⟨⟨?_, ?_⟩, ?_⟩
      · rw [List.forall_mem_cons]
        refine ⟨.of_ends ?_ ?_, hrest.valid⟩
        · apply hmoved _ hvalid.1.anchor_boundary
          · simp only [Selection.start]
            omega
          · simp only [Selection.stop]
            omega
        · apply hmoved _ hvalid.1.head_boundary
          · simp only [Selection.start]
            omega
          · simp only [Selection.stop]
            omega
      · rw [List.pairwise_cons]
        refine ⟨fun e he => ?_, hrest.ordered⟩
        obtain ⟨t, ht, k, hk, he⟩ := hlower e he
        have := hsorted.1 t ht
        rw [hstop, he]
        omega
      · rw [List.forall_mem_cons]
        refine ⟨⟨s, by simp, _, hle, hstart⟩, fun e he => ?_⟩
        obtain ⟨t, ht, k, hk, he⟩ := hlower e he
        exact ⟨t, List.mem_cons_of_mem _ ht, k, by omega, he⟩

end Copies

/-- The text that `duplicateLines` inserts behind a block. -/
def copyText (rope : Rope) (block : ByteRange × Bool) : List Char :=
  if block.2 then rope.byteSlice block.1.start block.1.stop
  else '\n' :: rope.byteSlice block.1.start block.1.stop

theorem IsBlock.isCopy {rope : Rope} {block : ByteRange × Bool}
    (h : IsBlock rope block) : IsCopy rope (block.1, copyText rope block) := by
  refine ⟨h.le, h.valid.inBounds, fun o ho hstart hstop => ?_⟩
  obtain ⟨t, u, htu, -, hu⟩ := h.valid.cut ho hstart hstop
  rw [copyText, htu]
  split
  · exact ⟨t, u, rfl, hu⟩
  · exact ⟨'\n' :: t, u, rfl, hu⟩

namespace Buffer

theorem copyOfBlock_of_isBlock {b : Buffer} {block : ByteRange × Bool}
    (h : IsBlock b.rope block) :
    b.copyOfBlock block = .ok (copyText b.rope block) := by
  rw [copyOfBlock, slice_of_valid h.valid, copyText]
  split
  · rfl
  · rfl

theorem duplicateLines_inOrder {rope : Rope}
    {blocks : List (ByteRange × Bool)} (h : AreBlocks rope blocks) :
    InOrder rope (blocks.map fun block =>
      ⟨⟨block.1.stop, block.1.stop⟩, copyText rope block⟩) := by
  constructor
  · intro e he
    obtain ⟨block, hblock, rfl⟩ := List.mem_map.mp he
    have hvalid := (h.each block hblock).valid
    exact ⟨le_rfl, hvalid.inBounds, hvalid.stopBoundary, hvalid.stopBoundary⟩
  · refine List.pairwise_map.mpr (h.apart.imp_of_mem ?_)
    intro c d _ hd hlt
    have := (h.each d hd).le
    simp only
    omega

/-- The batch that duplicates lines, with the selections it returns. -/
theorem duplicateLines_eq {b : Buffer} {selections : List Selection}
    (h : AreBlocks b.rope (b.rope.lineBlocks selections)) (revision : ℕ) :
    b.duplicateLines revision selections =
      b.applyWithSelections revision
        ((b.rope.lineBlocks selections).map fun block =>
          ⟨⟨block.1.stop, block.1.stop⟩, copyText b.rope block⟩)
        (normalize selections)
        (selectionsOnCopies 0 ((b.rope.lineBlocks selections).map
          fun block => (block.1, copyText b.rope block))
          (normalize selections)) := by
  have hcopies : ((b.rope.lineBlocks selections).map Prod.fst).zip
      ((b.rope.lineBlocks selections).map (copyText b.rope)) =
        (b.rope.lineBlocks selections).map
          fun block => (block.1, copyText b.rope block) := by
    rw [List.zip_map', List.map_congr_left]
    intros
    rfl
  rw [duplicateLines]
  simp only [mapM_ok fun block hblock =>
    copyOfBlock_of_isBlock (h.each block hblock), hcopies, List.map_map]
  rfl

theorem duplicateLines_succeeds (b : Buffer) (revision : ℕ)
    {selections : List Selection} (h : ∀ s ∈ selections, s.Valid b.rope) :
    Succeeds (b.duplicateLines revision selections) := by
  obtain ⟨hblocks, hcovers⟩ := lineBlocks_spec h
  rw [duplicateLines_eq hblocks]
  refine succeeds_applyWithSelections (duplicateLines_inOrder hblocks)
    revision _ _ ?_
  intro rope hsplices
  rw [List.map_map] at hsplices
  have hpending : Pending b.rope rope 0
      ((b.rope.lineBlocks selections).map
        fun block => (block.1, copyText b.rope block)) := by
    refine ⟨?_, List.pairwise_map.mpr hblocks.apart,
      [], 0, b.rope, rope, rfl, rfl, ?_⟩
    · intro c hc
      obtain ⟨block, hblock, rfl⟩ := List.mem_map.mp hc
      exact (hblocks.each block hblock).isCopy
    · rw [List.map_map]
      exact hsplices
  refine (selectionsOnCopies_valid hpending (normalize_valid h) ?_
    ((normalize_apart selections).imp Selection.Apart.le)).1
  intro s hs
  obtain ⟨block, hblock, hcover⟩ := hcovers s hs
  refine ⟨_, List.mem_map.mpr ⟨block, hblock, rfl⟩, hcover.start_le,
    hcover.stop_le, ?_⟩
  cases hbreak : block.2 with
  | true => exact Or.inl (hcover.start_lt hbreak)
  | false => exact Or.inr ((hblocks.each block hblock).stop_end hbreak)

end Buffer

end Tempr.Editor
