import Tempr.Editor.MoveSelections

/-!
# Outcome of moving lines

Moving lines always succeeds as an edit.  Its selections are valid exactly when
no selection reaches past the content of its moved block to a place that is
not one: a place inside a character, behind the end of the text, or inside the
next selection.
-/

namespace Tempr.Editor

open Tempr.Support

/-! ## Distances -/

section OneBlock

variable {rope : Rope} {B : ByteRange × Bool}

/-- A block that moves up goes to the start of the line in front of it. -/
theorem movedBy_up_eq (h : IsBlock rope B)
    (hmove : Movable rope .up B = true) :
    (B.1.start : ℤ) + (movedBy rope B .up).2 =
      (movedEdit rope B .up).range.start ∧
      (movedBy rope B .up).2 ≤ 0 := by
  obtain ⟨p, u, k, v, hparts⟩ := h.exists_parts
  obtain ⟨p₀, pc, brk, rfl, hup⟩ :=
    hparts.exists_upParts (movable_up_iff.mp hmove)
  have hstart := hparts.start_eq
  rw [hup.edit_eq hparts]
  simp only [movedBy, hup.prev_eq, Rope.lenBytes_append] at hstart ⊢
  omega

/-- The content of a block that moves down ends where the content of the line
below it ended. -/
theorem movedBy_down_eq (h : IsBlock rope B)
    (hmove : Movable rope .down B = true) :
    (contentEnd rope B : ℤ) + (movedBy rope B .down).2 =
      rope.lineEnd B.1.stop ∧
      0 < (movedBy rope B .down).2 := by
  obtain ⟨p, u, k, v, hparts⟩ := h.exists_parts
  obtain ⟨hbreak, -⟩ := movable_down_iff.mp hmove
  obtain ⟨n, w, rfl, hdown⟩ := hparts.exists_downParts hbreak
  have hstop := hparts.stop_eq
  have hk := (hparts.of_break hbreak).lenBytes_le
  simp only [movedBy, hdown.next_eq, hparts.blockBreak_eq, hdown.nextEnd_eq]
  omega

/-- The lines behind a block that moves down: one is below it, and any other
starts behind that line's break. -/
theorem afterNext_spec (h : IsBlock rope B)
    (hmove : Movable rope .down B = true) :
    afterNext rope B.1.stop =
        rope.lineEnd B.1.stop + nextBreakLen rope B ∧
      nextBreakLen rope B ≤ 2 ∧ B.1.stop ≤ rope.lineEnd B.1.stop ∧
      B.1.stop ≤ contentEnd rope B + 2 ∧
      ∀ o, IsLineStart rope o → B.1.stop < o →
        0 < nextBreakLen rope B ∧ afterNext rope B.1.stop ≤ o := by
  obtain ⟨p, u, k, v, hparts⟩ := h.exists_parts
  obtain ⟨hbreak, -⟩ := movable_down_iff.mp hmove
  obtain ⟨n, w, rfl, hdown⟩ := hparts.exists_downParts hbreak
  obtain ⟨j, z, rfl, hj, hafter, hstarts⟩ := hdown.rest
  have hstop := hparts.stop_eq
  have hk := (hparts.of_break hbreak).lenBytes_le
  have hend := hdown.nextEnd_eq
  have hwidth : nextBreakLen rope B = Rope.lenBytes j := by
    rw [nextBreakLen, hafter, hend]
    omega
  have hj2 : Rope.lenBytes j ≤ 2 := by
    rcases hj with hj | ⟨rfl, -⟩
    · exact hj.lenBytes_le.2
    · simp
  refine ⟨by omega, by omega, by omega, by omega, fun o ho hlt => ?_⟩
  obtain ⟨hbreak', hle⟩ := hstarts o ho hlt
  have := hbreak'.lenBytes_le
  exact ⟨by omega, by omega⟩

end OneBlock

/-! ## Moved selections -/

section Selections

variable {rope : Rope} {blocks : List (ByteRange × Bool)}

/-- How far a block moves. -/
def distance (rope : Rope) (direction : LineDirection)
    (B : ByteRange × Bool) : ℤ :=
  if Movable rope direction B then (movedBy rope B direction).2 else 0

/-- A selection after the move. -/
def movedSelection (rope : Rope) (direction : LineDirection)
    (blocks : List (ByteRange × Bool)) (s : Selection) : Selection :=
  moveSelection ((movers rope direction blocks).map
    fun B => movedBy rope B direction) rope.lenBytes s

theorem distance_nonneg (h : IsBlock rope B) (direction : LineDirection) :
    0 ≤ (B.1.start : ℤ) + distance rope direction B := by
  rw [distance]
  split
  case isTrue hmove =>
    cases direction with
    | up =>
        have := (movedBy_up_eq h hmove).1
        omega
    | down =>
        have := (movedBy_down_eq h hmove).2
        omega
  case isFalse => omega

theorem movedSelection_eq (h : AreBlocks rope blocks)
    (direction : LineDirection) {B : ByteRange × Bool} (hB : B ∈ blocks)
    {s : Selection} (hs : Covers B s) :
    movedSelection rope direction blocks s =
      ⟨((s.anchor : ℤ) + distance rope direction B).toNat,
        ((s.head : ℤ) + distance rope direction B).toNat⟩ := by
  rw [movedSelection, moveSelection_eq h direction hB hs, distance]
  split
  · rfl
  · simp

theorem movedSelection_ends (h : AreBlocks rope blocks)
    (direction : LineDirection) {B : ByteRange × Bool} (hB : B ∈ blocks)
    {s : Selection} (hs : Covers B s) :
    ((movedSelection rope direction blocks s).start : ℤ) =
        s.start + distance rope direction B ∧
      ((movedSelection rope direction blocks s).stop : ℤ) =
        s.stop + distance rope direction B := by
  have hnonneg := distance_nonneg (h.each B hB) direction
  have hstart := hs.start_le
  rw [movedSelection_eq h direction hB hs]
  simp only [Selection.start, Selection.stop] at hstart ⊢
  omega

/-- The place a selection of a moved block lands at is valid. -/
def Lands (rope : Rope) (blocks : List (ByteRange × Bool))
    (B : ByteRange × Bool) (s : Selection) : LineDirection → Prop
  | .up =>
      s.stop ≤ contentEnd rope B + prevBreakLen rope B ∨
        SingleHead (trimEndBreaks (prevLine rope B))
  | .down =>
      s.stop ≤ contentEnd rope B + nextBreakLen rope B ∨
        0 < nextBreakLen rope B ∧ BoundaryBelow rope blocks B

theorem movedSelection_valid_iff (h : AreBlocks rope blocks)
    {direction : LineDirection} {text : Rope}
    (htext : MovedText rope direction blocks text) {B : ByteRange × Bool}
    (hB : B ∈ movers rope direction blocks) {s : Selection}
    (hvalid : s.Valid rope) (hs : Covers B s) :
    (movedSelection rope direction blocks s).Valid text ↔
      Lands rope blocks B s direction := by
  obtain ⟨hmem, hmove⟩ := mem_movers.mp hB
  have hbound : ∀ o, rope.IsCharBoundary o → s.start ≤ o → o ≤ s.stop →
      (text.IsCharBoundary
          ((o : ℤ) + distance rope direction B).toNat ↔
        Lands rope blocks B (Selection.cursor o) direction) := by
    intro o ho hstart hstop
    have h1 := hs.start_le
    have h2 := hs.stop_le
    rw [distance, if_pos hmove]
    cases direction with
    | up =>
        simp only [Lands, Selection.cursor_stop]
        exact htext.boundary_up_iff h hB ho (by omega) (by omega)
    | down =>
        simp only [Lands, Selection.cursor_stop]
        exact htext.boundary_down_iff h hB ho (by omega) (by omega)
  have hanti : ∀ o, o ≤ s.stop → Lands rope blocks B s direction →
      Lands rope blocks B (Selection.cursor o) direction := by
    intro o ho hlands
    cases direction with
    | up =>
        simp only [Lands, Selection.cursor_stop] at hlands ⊢
        exact hlands.imp_left fun hle => by omega
    | down =>
        simp only [Lands, Selection.cursor_stop] at hlands ⊢
        exact hlands.imp_left fun hle => by omega
  have hstop : Lands rope blocks B (Selection.cursor s.stop) direction →
      Lands rope blocks B s direction := by
    cases direction with
    | up => simp [Lands]
    | down => simp [Lands]
  have hanchor := s.anchor_between
  have hhead := s.head_between
  rw [movedSelection_eq h direction hmem hs]
  constructor
  · intro hmoved
    apply hstop
    rw [← hbound s.stop hvalid.stop_boundary s.start_le_stop le_rfl]
    rcases le_total s.anchor s.head with hle | hle
    · rw [show s.stop = s.head from max_eq_right hle]
      exact hmoved.head_boundary
    · rw [show s.stop = s.anchor from max_eq_left hle]
      exact hmoved.anchor_boundary
  · intro hlands
    exact .of_ends
      ((hbound _ hvalid.anchor_boundary hanchor.1 hanchor.2).mpr
        (hanti _ hanchor.2 hlands))
      ((hbound _ hvalid.head_boundary hhead.1 hhead.2).mpr
        (hanti _ hhead.2 hlands))

/-- A block that does not move keeps its boundaries. -/
theorem MovedText.boundary_unmoved (h : AreBlocks rope blocks)
    {direction : LineDirection} {text : Rope}
    (htext : MovedText rope direction blocks text) {B : ByteRange × Bool}
    (hB : B ∈ blocks) (hstay : ¬Movable rope direction B = true) {o : ℕ}
    (ho : rope.IsCharBoundary o) (hstart : B.1.start ≤ o)
    (hstop : o ≤ B.1.stop) : text.IsCharBoundary o := by
  have hblock := h.each B hB
  rw [MovedText, List.map_map] at htext
  cases direction with
  | up =>
      have hzero : B.1.start = 0 := by
        simpa using mt movable_up_iff.mpr hstay
      obtain ⟨x, y, rfl, hx⟩ := hblock.stop_boundary
      change Rope.lenBytes x = _ at hx
      obtain ⟨y', rfl, -⟩ := htext.skip Rope.utf8Size_pos (by
        intro r hr
        obtain ⟨C, hC, rfl⟩ := List.mem_map.mp hr
        obtain ⟨hCmem, hCmove⟩ := mem_movers.mp hC
        have hlt : B.1.stop < C.1.start := by
          rcases h.trichotomy hB hCmem with rfl | hlt | hlt
          · exact absurd hCmove hstay
          · exact hlt
          · omega
        have hline := (hblock.break_of_lt (h.each C hCmem) hlt).2
        have hle := le_movedEdit_start (h.each C hCmem) hCmove hline hlt
        change 0 + Rope.lenBytes x ≤ _
        rw [Nat.zero_add, hx]
        exact hle)
      rw [← hx] at hstop
      exact ((isBoundary_append_left_iff Rope.utf8Size_pos x y hstop).mp
        ho).append_right y'
  | down =>
      refine htext.boundary_of_le Rope.utf8Size_pos
        (by simpa using movedEdits_keep h .down) ho ?_
      intro r hr
      obtain ⟨C, hC, rfl⟩ := List.mem_map.mp hr
      obtain ⟨hCmem, hCmove⟩ := mem_movers.mp hC
      have hlt : C.1.stop < B.1.start := by
        rcases h.trichotomy hB hCmem with rfl | hlt | hlt
        · exact absurd hCmove hstay
        · have hbreak := (hblock.break_of_lt (h.each C hCmem) hlt).1
          have hCle := (h.each C hCmem).start_line.isCharBoundary.le_lenBytes
          exact absurd (movable_down_iff.mpr ⟨hbreak, by omega⟩) hstay
        · exact hlt
      have := (movedEdit_stop_le (h.each C hCmem) hCmove
        hblock.start_line hlt).1
      change (movedEdit rope C .down).range.stop ≤ 0 + o
      omega

/-- Nor do the selections of such a block move. -/
theorem movedSelection_valid_of_unmoved (h : AreBlocks rope blocks)
    {direction : LineDirection} {text : Rope}
    (htext : MovedText rope direction blocks text) {B : ByteRange × Bool}
    (hB : B ∈ blocks) (hstay : ¬Movable rope direction B = true)
    {s : Selection} (hvalid : s.Valid rope) (hs : Covers B s) :
    (movedSelection rope direction blocks s).Valid text := by
  have hsame : movedSelection rope direction blocks s = s := by
    rw [movedSelection_eq h direction hB hs, distance, if_neg hstay]
    simp
  have hbound : ∀ o, rope.IsCharBoundary o → s.start ≤ o → o ≤ s.stop →
      text.IsCharBoundary o := by
    intro o ho hstart hstop
    have h1 := hs.start_le
    have h2 := hs.stop_le
    exact htext.boundary_unmoved h hB hstay ho (by omega) (by omega)
  rw [hsame]
  exact .of_ends
    (hbound _ hvalid.anchor_boundary s.anchor_between.1 s.anchor_between.2)
    (hbound _ hvalid.head_boundary s.head_between.1 s.head_between.2)

/-- Selections that stay in order: each one keeps in front of the next. -/
def InFront (rope : Rope) (direction : LineDirection)
    (blocks : List (ByteRange × Bool)) (s t : Selection) : Prop :=
  (movedSelection rope direction blocks s).stop ≤
    (movedSelection rope direction blocks t).start

theorem inFront_of_same_block (h : AreBlocks rope blocks)
    (direction : LineDirection) {B : ByteRange × Bool} (hB : B ∈ blocks)
    {s t : Selection} (hs : Covers B s) (ht : Covers B t)
    (hle : s.stop ≤ t.start) : InFront rope direction blocks s t := by
  have hs' := (movedSelection_ends h direction hB hs).2
  have ht' := (movedSelection_ends h direction hB ht).1
  rw [InFront]
  omega

theorem inFront_up (h : AreBlocks rope blocks) {B C : ByteRange × Bool}
    (hB : B ∈ blocks) (hC : C ∈ blocks) (hlt : B.1.stop < C.1.start)
    {s t : Selection} (hs : Covers B s) (ht : Covers C t) :
    InFront rope .up blocks s t := by
  have hs' := (movedSelection_ends h .up hB hs).2
  have ht' := (movedSelection_ends h .up hC ht).1
  have hs2 := hs.stop_le
  have ht1 := ht.start_le
  have hmove : Movable rope .up C = true := movable_up_iff.mpr (by omega)
  have hline := ((h.each B hB).break_of_lt (h.each C hC) hlt).2
  have hge := le_movedEdit_start (h.each C hC) hmove hline hlt
  have hC' := (movedBy_up_eq (h.each C hC) hmove).1
  have hBle : distance rope .up B ≤ 0 := by
    rw [distance]
    split
    case isTrue hmoveB => exact (movedBy_up_eq (h.each B hB) hmoveB).2
    case isFalse => exact le_rfl
  rw [distance, if_pos hmove] at ht'
  rw [InFront]
  omega

/-- Does a block start at an offset and move down? -/
def MovesFrom (rope : Rope) (blocks : List (ByteRange × Bool)) (o : ℕ) :
    Prop :=
  ∃ C ∈ movers rope .down blocks, C.1.start = o

/-- Moving down keeps a selection in front of one of a later block, unless it
overhangs and that selection starts where it lands and does not move. -/
theorem inFront_down_iff (h : AreBlocks rope blocks) {B C : ByteRange × Bool}
    (hB : B ∈ movers rope .down blocks) (hC : C ∈ blocks)
    (hlt : B.1.stop < C.1.start) {s t : Selection} (hs : Covers B s)
    (ht : Covers C t) :
    InFront rope .down blocks s t ↔
      s.stop ≤ contentEnd rope B + nextBreakLen rope B ∨
        t.start ≠ afterNext rope B.1.stop ∨
        MovesFrom rope blocks (afterNext rope B.1.stop) := by
  obtain ⟨hBmem, hmove⟩ := mem_movers.mp hB
  have hCblock := h.each C hC
  have hs' := (movedSelection_ends h .down hBmem hs).2
  have ht' := (movedSelection_ends h .down hC ht).1
  have hs2 := hs.stop_le
  have ht1 := ht.start_le
  obtain ⟨hend, -⟩ := movedBy_down_eq (h.each B hBmem) hmove
  obtain ⟨hafter, hwidth, -, hover, hstarts⟩ :=
    afterNext_spec (h.each B hBmem) hmove
  obtain ⟨hpos, hge⟩ := hstarts _ hCblock.start_line hlt
  rw [distance, if_pos hmove] at hs'
  have hdist : 0 ≤ distance rope .down C ∧
      (Movable rope .down C = true → 0 < distance rope .down C) := by
    rw [distance]
    split
    case isTrue hmoveC =>
      have := (movedBy_down_eq hCblock hmoveC).2
      exact ⟨by omega, fun _ => by omega⟩
    case isFalse hstay => exact ⟨le_rfl, fun hm => absurd hm hstay⟩
  rw [InFront]
  constructor
  · intro hle
    by_contra hnot
    push Not at hnot
    obtain ⟨hlong, hat, hno⟩ := hnot
    have hstart : C.1.start = afterNext rope B.1.stop := by omega
    have hstay : distance rope .down C = 0 := by
      rw [distance, if_neg]
      intro hm
      exact hno ⟨C, mem_movers.mpr ⟨hC, hm⟩, hstart⟩
    omega
  · rintro (hshort | hne | ⟨D, hD, hDstart⟩)
    · omega
    · omega
    · obtain ⟨hDmem, hDmove⟩ := mem_movers.mp hD
      have hDle := (h.each D hDmem).le
      rcases h.trichotomy hC hDmem with rfl | hCD | hDC
      · have := hdist.2 hDmove
        omega
      · have := hCblock.le
        omega
      · omega

/-- A selection where a block that moves down lands is of a later block. -/
theorem lt_of_start_eq_afterNext (h : AreBlocks rope blocks)
    {B C : ByteRange × Bool} (hB : B ∈ movers rope .down blocks)
    (hC : C ∈ blocks) {t : Selection} (ht : Covers C t)
    (hpos : 0 < nextBreakLen rope B)
    (hat : t.start = afterNext rope B.1.stop) : B.1.stop < C.1.start := by
  obtain ⟨hBmem, hmove⟩ := mem_movers.mp hB
  obtain ⟨hafter, -, hend, -, -⟩ := afterNext_spec (h.each B hBmem) hmove
  have htstop := ht.stop_le
  have htle := t.start_le_stop
  rcases h.trichotomy hBmem hC with rfl | hlt | hlt
  · omega
  · exact hlt
  · have hBle := (h.each B hBmem).le
    omega

/-- Selections stay in order, unless one overhangs a block that moves down to
where the other stays. -/
theorem inFront_of_apart (h : AreBlocks rope blocks)
    {direction : LineDirection} {B C : ByteRange × Bool} (hB : B ∈ blocks)
    (hC : C ∈ blocks) {s t : Selection} (hs : Covers B s) (ht : Covers C t)
    (hst : s.Apart t)
    (hfits : direction = .down → B ∈ movers rope direction blocks →
      s.stop ≤ contentEnd rope B + nextBreakLen rope B ∨
        t.start ≠ afterNext rope B.1.stop ∨
        MovesFrom rope blocks (afterNext rope B.1.stop)) :
    InFront rope direction blocks s t := by
  have hBs := hs.start_le
  have hCt := ht.stop_le
  have hsle := s.start_le_stop
  have htle := t.start_le_stop
  have hle := hst.le
  rcases h.trichotomy hB hC with rfl | hlt | hlt
  · exact inFront_of_same_block h direction hB hs ht hle
  · cases direction with
    | up => exact inFront_up h hB hC hlt hs ht
    | down =>
        have hbreak := ((h.each B hB).break_of_lt (h.each C hC) hlt).1
        have hbound := (h.each C hC).start_line.isCharBoundary.le_lenBytes
        have hmem : B ∈ movers rope .down blocks :=
          mem_movers.mpr ⟨hB, movable_down_iff.mpr ⟨hbreak, by omega⟩⟩
        exact (inFront_down_iff h hmem hC hlt hs ht).mpr (hfits rfl hmem)
  · omega

end Selections

/-! ## The operation -/

/-- When moving lines returns valid selections: each selection of a moved
block ends inside the block's content or lands at a character boundary, and
not inside the selection that follows. -/
def MoveFits (rope : Rope) (selections : List Selection)
    (direction : LineDirection) : Prop :=
  let before := normalize selections
  let blocks := rope.lineBlocks before
  ∀ B ∈ movers rope direction blocks, ∀ s ∈ before, Covers B s →
    Lands rope blocks B s direction ∧
      (direction = .down →
        s.stop ≤ contentEnd rope B + nextBreakLen rope B ∨
          MovesFrom rope blocks (afterNext rope B.1.stop) ∨
          ∀ t ∈ before, t.start ≠ afterNext rope B.1.stop)

theorem pairwise_map_rel {α β : Type*} {R : α → α → Prop}
    {S : β → β → Prop} {f : α → β} {xs : List α}
    (hS : (xs.map f).Pairwise S) (hR : xs.Pairwise R) {x y : α}
    (hx : x ∈ xs) (hy : y ∈ xs) (hne : x ≠ y) (hno : ¬R y x) :
    S (f x) (f y) := by
  obtain ⟨front, back, rfl⟩ := List.append_of_mem hx
  rw [List.pairwise_map] at hS
  have hS' := List.pairwise_append.mp hS
  have hR' := List.pairwise_append.mp hR
  rcases List.mem_append.mp hy with hfront | hback
  · exact absurd (hR'.2.2 y hfront x (by simp)) hno
  · rcases List.mem_cons.mp hback with rfl | hback
    · exact absurd rfl hne
    · exact (List.pairwise_cons.mp hS'.2.1).1 y hback

theorem validSelections_iff_moveFits {rope text : Rope}
    {selections : List Selection} (h : ∀ s ∈ selections, s.Valid rope)
    {direction : LineDirection}
    (htext : MovedText rope direction
      (rope.lineBlocks (normalize selections)) text) :
    ValidSelections text ((normalize selections).map
        (movedSelection rope direction
          (rope.lineBlocks (normalize selections)))) ↔
      MoveFits rope selections direction := by
  have hvalid := normalize_valid h
  have hapart := normalize_apart selections
  obtain ⟨hblocks, hcovers⟩ := lineBlocks_spec hvalid
  rw [normalize_normalize] at hcovers
  rw [MoveFits]
  constructor
  · intro hafter B hB s hs hBs
    have hlands := (movedSelection_valid_iff hblocks htext hB (hvalid s hs)
      hBs).mp (hafter.valid _ (List.mem_map.mpr ⟨s, hs, rfl⟩))
    refine ⟨hlands, ?_⟩
    rintro rfl
    by_contra hnot
    push Not at hnot
    obtain ⟨hlong, hstay, t, ht, hat⟩ := hnot
    -- The selection `t` stays where `s` lands.
    obtain ⟨C, hC, hCt⟩ := hcovers t ht
    have hpos : 0 < nextBreakLen rope B := (hlands.resolve_left hlong.not_ge).1
    have hlt := lt_of_start_eq_afterNext hblocks hB hC hCt hpos hat
    have hfront : InFront rope .down (rope.lineBlocks (normalize selections))
        s t := by
      have hBstop := hBs.stop_le
      have hCstart := hCt.start_le
      have htle := t.start_le_stop
      have hsle := s.start_le_stop
      refine pairwise_map_rel hafter.ordered hapart hs ht ?_ ?_
      · rintro rfl
        omega
      · intro hback
        have := hback.le
        omega
    rcases (inFront_down_iff hblocks hB hC hlt hBs hCt).mp hfront with
      hshort | hne | hmoves
    · omega
    · exact hne hat
    · exact hstay hmoves
  · intro hfits
    constructor
    · intro s' hs'
      obtain ⟨s, hs, rfl⟩ := List.mem_map.mp hs'
      obtain ⟨B, hB, hBs⟩ := hcovers s hs
      by_cases hmove : Movable rope direction B = true
      · have hmem := mem_movers.mpr ⟨hB, hmove⟩
        exact (movedSelection_valid_iff hblocks htext hmem (hvalid s hs)
          hBs).mpr (hfits B hmem s hs hBs).1
      · exact movedSelection_valid_of_unmoved hblocks htext hB hmove
          (hvalid s hs) hBs
    · rw [List.pairwise_map]
      refine hapart.imp_of_mem ?_
      intro s t hs ht hst
      obtain ⟨B, hB, hBs⟩ := hcovers s hs
      obtain ⟨C, hC, hCt⟩ := hcovers t ht
      refine inFront_of_apart hblocks hB hC hBs hCt hst fun hdown hmem => ?_
      rcases (hfits B hmem s hs hBs).2 hdown with hshort | hmoves | hnone
      · exact .inl hshort
      · exact .inr (.inr hmoves)
      · exact .inr (.inl (hnone t ht))

theorem filterMap_movers {β : Type*} (rope : Rope)
    (direction : LineDirection) (blocks : List (ByteRange × Bool))
    (f : ByteRange × Bool → β) :
    (blocks.map fun B =>
      if Movable rope direction B then some (f B) else none).filterMap id =
        (movers rope direction blocks).map f := by
  induction blocks with
  | nil => rfl
  | cons B blocks ih =>
      by_cases hmove : Movable rope direction B = true
      · simpa [movers, hmove] using ih
      · simpa [movers, hmove] using ih

namespace Buffer

theorem moveLines_succeeds_iff (b : Buffer) (revision : ℕ)
    {selections : List Selection} (h : ∀ s ∈ selections, s.Valid b.rope)
    (direction : LineDirection) :
    Succeeds (b.moveLines revision selections direction) ↔
      MoveFits b.rope selections direction := by
  have hvalid := normalize_valid h
  obtain ⟨hblocks, -⟩ := lineBlocks_spec hvalid
  rw [moveLines]
  simp only [mapM_ok fun B hB => moveBlock_eq (hblocks.each B hB) direction,
    filterMap_movers, List.map_map]
  split
  case isTrue hnone =>
    have hmovers : movers b.rope direction
        (b.rope.lineBlocks (normalize selections)) = [] := by
      simpa using hnone
    constructor
    · intro _ B hB
      simp [hmovers] at hB
    · intro _
      exact ⟨_, rfl, normalize_validSelections h⟩
  case isFalse =>
    obtain ⟨⟨id, hid⟩, hsplices⟩ := applyWithSelections_spec
      (movedEdits_inOrder hblocks direction) revision (normalize selections)
      ((normalize selections).map (movedSelection b.rope direction
        (b.rope.lineBlocks (normalize selections))))
    have hiff := validSelections_iff_moveFits h hsplices
    constructor
    · rintro ⟨outcome, houtcome, hafter⟩
      obtain rfl := Except.ok.inj (hid.symm.trans houtcome)
      exact hiff.mp hafter
    · intro hfits
      exact ⟨_, hid, hiff.mpr hfits⟩

end Buffer

/-! ## All operations -/

/-- The multi-cursor editing operations. -/
inductive EditOp where
  | insertAt (text : List Char)
  | backspace
  | deleteForward
  | deleteLines
  | duplicateLines
  | moveLines (direction : LineDirection)

/-- Run an operation on a list of selections. -/
def Buffer.runEditOp (g : Graphemes) (revision : ℕ) (b : Buffer)
    (selections : List Selection) :
    EditOp → Buffer × Except EditError EditOutcome
  | .insertAt text => b.insertAt revision selections text
  | .backspace => b.backspace g revision selections
  | .deleteForward => b.deleteForward g revision selections
  | .deleteLines => b.deleteLines revision selections
  | .duplicateLines => b.duplicateLines revision selections
  | .moveLines direction => b.moveLines revision selections direction

/-- Only moving lines asks anything of the selections. -/
def EditOp.Fits (rope : Rope) (selections : List Selection) :
    EditOp → Prop
  | .moveLines direction => MoveFits rope selections direction
  | _ => True

/-- The selections an operation returns are valid exactly when they fit it. -/
theorem Buffer.runEditOp_succeeds_iff (g : Graphemes) (b : Buffer)
    (revision : ℕ) (selections : List Selection)
    (h : ∀ s ∈ selections, s.Valid b.rope) (op : EditOp) :
    Succeeds (b.runEditOp g revision selections op) ↔
      op.Fits b.rope selections := by
  cases op with
  | insertAt text => exact iff_true_intro (b.insertAt_succeeds revision h text)
  | backspace => exact iff_true_intro (backspace_succeeds g b revision h)
  | deleteForward =>
      exact iff_true_intro (deleteForward_succeeds g b revision h)
  | deleteLines => exact iff_true_intro (b.deleteLines_succeeds revision h)
  | duplicateLines =>
      exact iff_true_intro (b.duplicateLines_succeeds revision h)
  | moveLines direction => exact b.moveLines_succeeds_iff revision h direction

/-- The whole first line of "a\nb\n" may move down. -/
theorem runEditOp_succeeds_iff_wholeLine :
    EditOp.Fits "a\nb\n".toList [⟨0, 2⟩] (.moveLines .down) := by
  have hvalid : ∀ s ∈ [(⟨0, 2⟩ : Selection)], s.Valid "a\nb\n".toList := by
    rw [List.forall_mem_singleton]
    exact ⟨by decide, by decide, by decide⟩
  refine (Buffer.runEditOp_succeeds_iff charGraphemes
    (Buffer.new 0 "a\nb\n".toList) 1 [⟨0, 2⟩] hvalid
    (.moveLines .down)).mp ⟨⟨some 1, [⟨2, 4⟩]⟩, by decide, ?_, ?_⟩
  · rw [List.forall_mem_singleton]
    exact ⟨by decide, by decide, by decide⟩
  · exact List.pairwise_singleton _ _

/-- The same selection moved over an unterminated last line ends behind the
text. -/
theorem moveLines_past_the_end :
    (∀ s ∈ [(⟨0, 2⟩ : Selection)], s.Valid "a\nb".toList) ∧
      ¬Succeeds ((Buffer.new 0 "a\nb".toList).runEditOp charGraphemes 1
        [⟨0, 2⟩] (.moveLines .down)) := by
  constructor
  · rw [List.forall_mem_singleton]
    exact ⟨by decide, by decide, by decide⟩
  · rintro ⟨outcome, houtcome, hafter⟩
    have hresult : ((Buffer.new 0 "a\nb".toList).runEditOp charGraphemes 1
        [⟨0, 2⟩] (.moveLines .down)).2 =
          .ok ⟨some 1, [⟨2, 4⟩]⟩ := by
      decide
    obtain rfl := Except.ok.inj (hresult.symm.trans houtcome)
    exact absurd (hafter.valid ⟨2, 4⟩ (by simp)).inBounds (by decide)

end Tempr.Editor
