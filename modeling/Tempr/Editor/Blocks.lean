import Tempr.Editor.Outcome

/-!
# Line blocks

The whole-line blocks that a list of selections touches: each is a range of
whole lines, they are separated by at least one untouched line, and every
selection lies in one of them.
-/

namespace Tempr.Editor

open Tempr.Support

/-- An offset at which a line starts. -/
def IsLineStart (rope : Rope) (o : ℕ) : Prop :=
  ∃ p s, rope = p ++ s ∧ Rope.LineStart p ∧ Rope.lenBytes p = o

theorem isLineStart_lineToByte {rope : Rope} {k : ℕ}
    (hk : k < rope.lenLines) : IsLineStart rope (rope.lineToByte k) := by
  obtain ⟨p, s, rfl, hp, rfl⟩ := Rope.exists_lineStart_of_lt hk
  exact ⟨p, s, rfl, hp, (Rope.lineToByte_append hp s).symm⟩

theorem IsLineStart.isCharBoundary {rope : Rope} {o : ℕ}
    (h : IsLineStart rope o) : rope.IsCharBoundary o := by
  obtain ⟨p, s, rfl, -, rfl⟩ := h
  exact isBoundary_append_left p s

/-- A range of whole lines, and whether it ends in a line break; one that does
not reaches the end of the text. -/
structure IsBlock (rope : Rope) (entry : ByteRange × Bool) : Prop where
  start_line : IsLineStart rope entry.1.start
  le : entry.1.start ≤ entry.1.stop
  stop_line : entry.2 = true →
    IsLineStart rope entry.1.stop ∧ entry.1.start < entry.1.stop
  stop_end : entry.2 = false → entry.1.stop = rope.lenBytes

theorem IsBlock.stop_boundary {rope : Rope} {entry : ByteRange × Bool}
    (h : IsBlock rope entry) : rope.IsCharBoundary entry.1.stop := by
  cases hbreak : entry.2 with
  | true => exact (h.stop_line hbreak).1.isCharBoundary
  | false =>
      rw [h.stop_end hbreak]
      exact isBoundary_span rope

theorem IsBlock.valid {rope : Rope} {entry : ByteRange × Bool}
    (h : IsBlock rope entry) : entry.1.Valid rope :=
  ⟨h.le, h.stop_boundary.le_lenBytes, h.start_line.isCharBoundary,
    h.stop_boundary⟩

/-- The selection lies in the block and starts in front of the block's end,
unless the block reaches the end of the text. -/
structure Covers (entry : ByteRange × Bool) (s : Selection) : Prop where
  start_le : entry.1.start ≤ s.start
  stop_le : s.stop ≤ entry.1.stop
  start_lt : entry.2 = true → s.start < entry.1.stop

/-! ## The block of one selection -/

section OneBlock

variable {rope : Rope} {s : Selection}

theorem lastTouchedLine_spec (h : s.Valid rope) :
    rope.lineOf s.start ≤ rope.lastTouchedLine s ∧
      rope.lastTouchedLine s ≤ rope.lineOf s.stop ∧
      (rope.lastTouchedLine s + 1 < rope.lenLines →
        s.stop ≤ rope.lineToByte (rope.lastTouchedLine s + 1) ∧
          s.start < rope.lineToByte (rope.lastTouchedLine s + 1)) := by
  have hle := s.start_le_stop
  have hmono := Rope.lineOf_mono h.start_boundary h.stop_boundary hle
  have hcolumn := Rope.pointForOffset_column h.stop_boundary
  have hstop := Rope.lineToByte_lineOf_le h.stop_boundary
  rw [Rope.lastTouchedLine]
  simp only [hcolumn]
  split
  case isTrue hends =>
    -- The selection is nonempty and ends where its last line starts.
    simp only [Bool.and_eq_true, Bool.not_eq_true', decide_eq_true_eq] at hends
    obtain ⟨⟨hne, hzero⟩, hline⟩ := hends
    have hlt : s.start < s.stop := by
      have := (s.isEmpty_iff).not.mp (by simp [hne])
      omega
    have hstart := Rope.lineOf_lt_of_lt h.start_boundary
      (k := rope.lineOf s.stop) (by omega)
    have hsucc : rope.lineOf s.stop - 1 + 1 = rope.lineOf s.stop := by
      change 0 < rope.lineOf s.stop at hline
      omega
    change rope.lineOf s.start ≤ rope.lineOf s.stop - 1 ∧ _
    change _ ∧ rope.lineOf s.stop - 1 ≤ rope.lineOf s.stop ∧
      (rope.lineOf s.stop - 1 + 1 < _ →
        _ ≤ rope.lineToByte (rope.lineOf s.stop - 1 + 1) ∧ _)
    rw [hsucc]
    exact ⟨by omega, by omega, fun _ => ⟨by omega, by omega⟩⟩
  case isFalse =>
    refine ⟨hmono, le_rfl, fun hlast => ?_⟩
    have hlt := Rope.lt_lineToByte h.stop_boundary
      (k := rope.lineOf s.stop + 1) (by omega) hlast
    change _ ≤ rope.lineToByte (rope.lineOf s.stop + 1) ∧
      _ < rope.lineToByte (rope.lineOf s.stop + 1)
    exact ⟨by omega, by omega⟩

theorem lineBlock_of_break (h : s.Valid rope)
    (hlast : rope.lastTouchedLine s + 1 < rope.lenLines) :
    rope.lineBlock s =
      (⟨rope.lineToByte (rope.lineOf s.start),
        rope.lineToByte (rope.lastTouchedLine s + 1)⟩, true) := by
  have hstart := Rope.lineOf_lt_lenLines h.start_boundary
  rw [Rope.lineBlock]
  simp only [Rope.offsetForPoint_zero hstart, Rope.offsetForPoint_zero hlast,
    if_pos hlast]

theorem lineBlock_of_end (h : s.Valid rope)
    (hlast : ¬rope.lastTouchedLine s + 1 < rope.lenLines) :
    rope.lineBlock s =
      (⟨rope.lineToByte (rope.lineOf s.start), rope.lenBytes⟩, false) := by
  have hstart := Rope.lineOf_lt_lenLines h.start_boundary
  rw [Rope.lineBlock]
  simp only [Rope.offsetForPoint_zero hstart, if_neg hlast]

theorem lineBlock_spec (h : s.Valid rope) :
    IsBlock rope (rope.lineBlock s) ∧ Covers (rope.lineBlock s) s := by
  obtain ⟨hfirst, -, hcover⟩ := lastTouchedLine_spec h
  have hstart := Rope.lineOf_lt_lenLines h.start_boundary
  have hle := Rope.lineToByte_lineOf_le h.start_boundary
  by_cases hlast : rope.lastTouchedLine s + 1 < rope.lenLines
  · have hlt := (Rope.lineToByte_lt_iff hstart hlast).mpr (by omega)
    obtain ⟨hstop, hlt'⟩ := hcover hlast
    rw [lineBlock_of_break h hlast]
    exact ⟨⟨isLineStart_lineToByte hstart, hlt.le,
      fun _ => ⟨isLineStart_lineToByte hlast, hlt⟩, by simp⟩,
      ⟨hle, hstop, fun _ => hlt'⟩⟩
  · have hbound := h.start_boundary.le_lenBytes
    rw [lineBlock_of_end h hlast]
    exact ⟨⟨isLineStart_lineToByte hstart, by simp only; omega, by simp,
      fun _ => rfl⟩, ⟨hle, h.inBounds, by simp⟩⟩

end OneBlock

/-! ## Merging blocks -/

/-- Order of the blocks of selections that are apart. -/
structure BlockBefore (a b : ByteRange × Bool) : Prop where
  start_le : a.1.start ≤ b.1.start
  stop_le : a.1.stop ≤ b.1.stop
  ends : b.2 = true → a.2 = true

theorem lineBlock_before {rope : Rope} {a b : Selection}
    (ha : a.Valid rope) (hb : b.Valid rope) (hapart : a.Apart b) :
    BlockBefore (rope.lineBlock a) (rope.lineBlock b) := by
  obtain ⟨hafirst, halast, -⟩ := lastTouchedLine_spec ha
  obtain ⟨hbfirst, -, -⟩ := lastTouchedLine_spec hb
  have hline := Rope.lineOf_mono ha.stop_boundary hb.start_boundary
    hapart.le
  have hbstart := Rope.lineOf_lt_lenLines hb.start_boundary
  have hstart := Rope.lineToByte_mono
    (show rope.lineOf a.start ≤ rope.lineOf b.start by omega) hbstart
  by_cases hbl : rope.lastTouchedLine b + 1 < rope.lenLines
  · have hal : rope.lastTouchedLine a + 1 < rope.lenLines := by omega
    have hstop := Rope.lineToByte_mono
      (show rope.lastTouchedLine a + 1 ≤ rope.lastTouchedLine b + 1 by omega)
      hbl
    rw [lineBlock_of_break ha hal, lineBlock_of_break hb hbl]
    exact ⟨hstart, hstop, fun _ => rfl⟩
  · have hstop := (lineBlock_spec ha).1.stop_boundary.le_lenBytes
    rw [lineBlock_of_end hb hbl]
    refine ⟨?_, hstop, by simp⟩
    by_cases hal : rope.lastTouchedLine a + 1 < rope.lenLines
    · rw [lineBlock_of_break ha hal]
      exact hstart
    · rw [lineBlock_of_end ha hal]
      exact hstart

/-- The blocks that an operation works on. -/
structure AreBlocks (rope : Rope) (blocks : List (ByteRange × Bool)) :
    Prop where
  each : ∀ b ∈ blocks, IsBlock rope b
  apart : blocks.Pairwise fun a b => a.1.stop < b.1.start

/-- A block inside another one that is at least as late. -/
def Within (a b : ByteRange × Bool) : Prop :=
  b.1.start ≤ a.1.start ∧ a.1.stop ≤ b.1.stop ∧ (b.2 = true → a.2 = true)

theorem Within.covers {a b : ByteRange × Bool} {s : Selection}
    (h : Within a b) (hs : Covers a s) : Covers b s := by
  obtain ⟨hstart, hstop, hends⟩ := h
  have h1 := hs.start_le
  have h2 := hs.stop_le
  refine ⟨by omega, by omega, fun hbreak => ?_⟩
  have := hs.start_lt (hends hbreak)
  omega

theorem mergeBlocks_spec {rope : Rope} {last : ByteRange × Bool}
    {rest : List (ByteRange × Bool)} (hlast : IsBlock rope last)
    (hrest : ∀ b ∈ rest, IsBlock rope b)
    (hbefore : (last :: rest).Pairwise BlockBefore) :
    ∃ head tail, Rope.mergeBlocks last rest = head :: tail ∧
      head.1.start = last.1.start ∧ Within last head ∧
      AreBlocks rope (head :: tail) ∧
      ∀ b ∈ rest, ∃ c ∈ head :: tail, Within b c := by
  induction rest generalizing last with
  | nil =>
      refine ⟨last, [], rfl, rfl, ⟨le_rfl, le_rfl, id⟩, ⟨?_, ?_⟩, by simp⟩
      · simpa using hlast
      · exact List.pairwise_singleton _ _
  | cons block rest ih =>
      rw [List.pairwise_cons] at hbefore
      rw [List.forall_mem_cons] at hrest
      have hle := hbefore.1 block (by simp)
      simp only [Rope.mergeBlocks]
      by_cases htouch : block.1.start ≤ last.1.stop
      · rw [if_pos htouch]
        have hmax : max last.1.stop block.1.stop = block.1.stop :=
          max_eq_right hle.stop_le
        have hstart := hle.start_le
        have hordered := hrest.1.le
        rw [hmax]
        have hmerged : IsBlock rope (⟨last.1.start, block.1.stop⟩, block.2) :=
          ⟨hlast.start_line, by simp only; omega,
            fun hbreak => ⟨(hrest.1.stop_line hbreak).1, by
              have := (hrest.1.stop_line hbreak).2
              simp only
              omega⟩,
            hrest.1.stop_end⟩
        obtain ⟨head, tail, heq, hhead, hwithin, hblocks, hcover⟩ :=
          ih hmerged hrest.2 (by
            rw [List.pairwise_cons] at hbefore ⊢
            refine ⟨fun c hc => ?_, hbefore.2.2⟩
            have hc' := hbefore.2.1 c hc
            have := hc'.start_le
            exact ⟨by simp only; omega, hc'.stop_le, hc'.ends⟩)
        obtain ⟨hw1, hw2, hw3⟩ := hwithin
        simp only at hw1 hw2 hw3 hhead
        have hstop := hle.stop_le
        refine ⟨head, tail, heq, hhead, ⟨by omega, by omega, fun hb =>
          hle.ends (hw3 hb)⟩, hblocks, ?_⟩
        rw [List.forall_mem_cons]
        exact ⟨⟨head, by simp, by omega, by omega, hw3⟩, hcover⟩
      · rw [if_neg htouch]
        obtain ⟨head, tail, heq, hhead, hwithin, hblocks, hcover⟩ :=
          ih hrest.1 hrest.2 hbefore.2
        refine ⟨last, head :: tail, by rw [heq], rfl,
          ⟨le_rfl, le_rfl, id⟩, ⟨?_, ?_⟩, ?_⟩
        · rw [List.forall_mem_cons]
          exact ⟨hlast, hblocks.each⟩
        · have happart := hblocks.apart
          rw [List.pairwise_cons]
          refine ⟨fun c hc => ?_, happart⟩
          have hheadle := (hblocks.each head (by simp)).le
          rcases List.mem_cons.mp hc with rfl | hc
          · omega
          · have := (List.pairwise_cons.mp happart).1 c hc
            omega
        · rw [List.forall_mem_cons]
          refine ⟨⟨head, by simp, hwithin⟩, fun b hb => ?_⟩
          obtain ⟨c, hc, hbc⟩ := hcover b hb
          exact ⟨c, List.mem_cons_of_mem _ hc, hbc⟩

/-- The blocks of a list of selections, and the block of each selection. -/
theorem lineBlocks_spec {rope : Rope} {selections : List Selection}
    (h : ∀ s ∈ selections, s.Valid rope) :
    AreBlocks rope (rope.lineBlocks selections) ∧
      ∀ s ∈ normalize selections,
        ∃ b ∈ rope.lineBlocks selections, Covers b s := by
  have hvalid := normalize_valid h
  have hapart := normalize_apart selections
  rw [Rope.lineBlocks]
  cases hlist : normalize selections with
  | nil =>
      exact ⟨⟨by simp, List.Pairwise.nil⟩, by simp⟩
  | cons s rest =>
      rw [hlist] at hvalid hapart
      have hbefore : ((s :: rest).map rope.lineBlock).Pairwise
          BlockBefore := by
        rw [List.pairwise_map]
        exact hapart.imp_of_mem fun ha hb hab =>
          lineBlock_before (hvalid _ ha) (hvalid _ hb) hab
      have heach : ∀ b ∈ rest.map rope.lineBlock, IsBlock rope b := by
        intro b hb
        obtain ⟨t, ht, rfl⟩ := List.mem_map.mp hb
        exact (lineBlock_spec (hvalid t (List.mem_cons_of_mem _ ht))).1
      obtain ⟨head, tail, heq, -, hwithin, hblocks, hcover⟩ :=
        mergeBlocks_spec (lineBlock_spec (hvalid s (by simp))).1 heach hbefore
      simp only [List.map_cons, heq]
      refine ⟨hblocks, ?_⟩
      rw [List.forall_mem_cons]
      refine ⟨⟨head, by simp, hwithin.covers
        (lineBlock_spec (hvalid s (by simp))).2⟩, fun t ht => ?_⟩
      obtain ⟨c, hc, htc⟩ := hcover _ (List.mem_map.mpr ⟨t, ht, rfl⟩)
      exact ⟨c, hc, htc.covers
        (lineBlock_spec (hvalid t (List.mem_cons_of_mem _ ht))).2⟩

end Tempr.Editor
