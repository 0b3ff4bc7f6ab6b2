import Tempr.Editor.MoveLines

/-!
# Selections of moved lines

The edits of all moved blocks keep the length of the text, so every position
can be followed on its own.  This decides where each selection lands, and with
it exactly when moving lines returns valid selections.
-/

namespace Tempr.Editor

open Tempr.Support

/-! ## The batch of edits -/

section OneBlock

variable {rope : Rope} {B : ByteRange × Bool}

theorem movable_up_iff : Movable rope .up B = true ↔ B.1.start ≠ 0 := by
  simp [Movable]

theorem movable_down_iff : Movable rope .down B = true ↔
    B.2 = true ∧ B.1.stop < rope.lenBytes := by
  simp [Movable]

theorem movedEdit_valid (h : IsBlock rope B) {direction : LineDirection}
    (hmove : Movable rope direction B = true) :
    (movedEdit rope B direction).range.Valid rope := by
  obtain ⟨p, u, k, v, hparts⟩ := h.exists_parts
  have hstart := hparts.start_eq
  have hcontent := hparts.content_eq
  cases direction with
  | up =>
      obtain ⟨p₀, pc, brk, rfl, hup⟩ :=
        hparts.exists_upParts (movable_up_iff.mp hmove)
      rw [hup.edit_eq hparts]
      refine .of_parts (a := p₀) (m := pc ++ brk ++ u) (b := k ++ v)
        (by simp [hparts.text_eq]) rfl ?_
      simp only [Rope.lenBytes_append] at hcontent ⊢
      omega
  | down =>
      obtain ⟨n, w, rfl, hdown⟩ :=
        hparts.exists_downParts (movable_down_iff.mp hmove).1
      have hstop := hparts.stop_eq
      rw [hdown.edit_eq hparts]
      refine .of_parts (a := p) (m := u ++ k ++ n) (b := w)
        (by simp [hparts.text_eq]) hstart ?_
      simp only [Rope.lenBytes_append]
      omega

/-- Moving a block keeps the length of the text. -/
theorem movedEdit_keeps (h : IsBlock rope B) {direction : LineDirection}
    (hmove : Movable rope direction B = true) :
    (movedEdit rope B direction).replacement.Keeps Char.utf8Size := by
  obtain ⟨p, u, k, v, hparts⟩ := h.exists_parts
  have hstart := hparts.start_eq
  have hcontent := hparts.content_eq
  change _ + Rope.lenBytes _ = _
  cases direction with
  | up =>
      obtain ⟨p₀, pc, brk, rfl, hup⟩ :=
        hparts.exists_upParts (movable_up_iff.mp hmove)
      rw [hup.edit_eq hparts]
      simp only [Edit.replacement, Rope.lenBytes_append] at hcontent ⊢
      omega
  | down =>
      obtain ⟨n, w, rfl, hdown⟩ :=
        hparts.exists_downParts (movable_down_iff.mp hmove).1
      have hstop := hparts.stop_eq
      rw [hdown.edit_eq hparts]
      simp only [Edit.replacement, Rope.lenBytes_append]
      omega

/-- The edit of a block stays behind the lines that end before it, the line in
front of it apart. -/
theorem le_movedEdit_start (h : IsBlock rope B) {direction : LineDirection}
    (hmove : Movable rope direction B = true) {o : ℕ}
    (ho : IsLineStart rope o) (hlt : o < B.1.start) :
    o ≤ (movedEdit rope B direction).range.start := by
  obtain ⟨p, u, k, v, hparts⟩ := h.exists_parts
  cases direction with
  | up =>
      obtain ⟨p₀, pc, brk, rfl, hup⟩ :=
        hparts.exists_upParts (movable_up_iff.mp hmove)
      rw [hup.edit_eq hparts]
      exact hup.lineStart_le o ho hlt
  | down => exact hlt.le

/-- The edit of a block ends in front of the lines that start behind it, the
line behind it apart. -/
theorem movedEdit_stop_le (h : IsBlock rope B) {direction : LineDirection}
    (hmove : Movable rope direction B = true) {o : ℕ}
    (ho : IsLineStart rope o) (hlt : B.1.stop < o) :
    (movedEdit rope B direction).range.stop ≤ o ∧
      (direction = .up →
        (movedEdit rope B direction).range.stop ≤ B.1.stop) := by
  obtain ⟨p, u, k, v, hparts⟩ := h.exists_parts
  have hstop := hparts.stop_eq
  cases direction with
  | up =>
      obtain ⟨p₀, pc, brk, rfl, hup⟩ :=
        hparts.exists_upParts (movable_up_iff.mp hmove)
      rw [hup.edit_eq hparts]
      simp only
      omega
  | down =>
      obtain ⟨n, w, rfl, hdown⟩ :=
        hparts.exists_downParts (movable_down_iff.mp hmove).1
      obtain ⟨j, z, -, -, -, hstarts⟩ := hdown.rest
      have := (hstarts o ho hlt).2
      rw [hdown.edit_eq hparts]
      simp only [reduceCtorEq, false_implies, and_true]
      omega

end OneBlock

/-- A block in front of another one ends in a line break. -/
theorem IsBlock.break_of_lt {rope : Rope} {B C : ByteRange × Bool}
    (hB : IsBlock rope B) (hC : IsBlock rope C) (hlt : B.1.stop < C.1.start) :
    B.2 = true ∧ IsLineStart rope B.1.stop := by
  have hle := hC.start_line.isCharBoundary.le_lenBytes
  have hbreak : B.2 = true := by
    by_contra hno
    have := hB.stop_end (by simpa using hno)
    omega
  exact ⟨hbreak, (hB.stop_line hbreak).1⟩

section Batch

variable {rope : Rope} {blocks : List (ByteRange × Bool)}

/-- The blocks that an operation moves. -/
def movers (rope : Rope) (direction : LineDirection)
    (blocks : List (ByteRange × Bool)) : List (ByteRange × Bool) :=
  blocks.filter (Movable rope direction)

theorem mem_movers {direction : LineDirection} {B : ByteRange × Bool} :
    B ∈ movers rope direction blocks ↔
      B ∈ blocks ∧ Movable rope direction B = true :=
  List.mem_filter

theorem movedEdit_chain {direction : LineDirection} {B C : ByteRange × Bool}
    (hB : IsBlock rope B) (hC : IsBlock rope C)
    (hmB : Movable rope direction B = true)
    (hmC : Movable rope direction C = true) (hlt : B.1.stop < C.1.start) :
    (movedEdit rope B direction).range.stop ≤
      (movedEdit rope C direction).range.start := by
  obtain ⟨-, hline⟩ := hB.break_of_lt hC hlt
  obtain ⟨hstop, hup⟩ := movedEdit_stop_le hB hmB hC.start_line hlt
  cases direction with
  | up => exact (hup rfl).trans (le_movedEdit_start hC hmC hline hlt)
  | down => exact hstop

theorem movedEdits_inOrder (h : AreBlocks rope blocks)
    (direction : LineDirection) :
    InOrder rope ((movers rope direction blocks).map
      fun B => movedEdit rope B direction) := by
  constructor
  · intro e he
    obtain ⟨B, hB, rfl⟩ := List.mem_map.mp he
    obtain ⟨hmem, hmove⟩ := mem_movers.mp hB
    exact movedEdit_valid (h.each B hmem) hmove
  · rw [List.pairwise_map]
    refine (h.apart.filter _).imp_of_mem ?_
    intro B C hB hC hlt
    obtain ⟨hBmem, hBmove⟩ := mem_movers.mp hB
    obtain ⟨hCmem, hCmove⟩ := mem_movers.mp hC
    exact movedEdit_chain (h.each B hBmem) (h.each C hCmem) hBmove hCmove hlt

theorem movedEdits_keep (h : AreBlocks rope blocks)
    (direction : LineDirection) :
    ∀ r ∈ ((movers rope direction blocks).map
        fun B => movedEdit rope B direction).map Edit.replacement,
      r.Keeps Char.utf8Size := by
  intro r hr
  rw [List.map_map] at hr
  obtain ⟨B, hB, rfl⟩ := List.mem_map.mp hr
  obtain ⟨hmem, hmove⟩ := mem_movers.mp hB
  exact movedEdit_keeps (h.each B hmem) hmove

/-- Two blocks of a list are one, or one lies in front of the other. -/
theorem AreBlocks.trichotomy (h : AreBlocks rope blocks)
    {B C : ByteRange × Bool} (hB : B ∈ blocks) (hC : C ∈ blocks) :
    B = C ∨ B.1.stop < C.1.start ∨ C.1.stop < B.1.start := by
  obtain ⟨front, back, rfl⟩ := List.append_of_mem hB
  have hpair := List.pairwise_append.mp h.apart
  rcases List.mem_append.mp hC with hfront | hback
  · exact Or.inr (Or.inr (hpair.2.2 C hfront B (by simp)))
  · rcases List.mem_cons.mp hback with rfl | hback
    · exact Or.inl rfl
    · exact Or.inr (Or.inl ((List.pairwise_cons.mp hpair.2.1).1 C hback))

/-- The block that covers a selection is the only one. -/
theorem AreBlocks.eq_of_covers (h : AreBlocks rope blocks)
    {B C : ByteRange × Bool} (hB : B ∈ blocks) (hC : C ∈ blocks)
    {s : Selection} (hBs : Covers B s) (hCs : C.1.start ≤ s.start)
    (hCs' : s.start ≤ C.1.stop) : C = B := by
  have h1 := hBs.start_le
  have h2 := hBs.stop_le
  have h3 := s.start_le_stop
  rcases h.trichotomy hB hC with rfl | hlt | hlt
  · rfl
  · omega
  · omega

/-! ## Where a selection goes -/

/-- The offsets that travel with a moved block are those of the selections it
covers. -/
theorem travels_iff (h : AreBlocks rope blocks) {direction : LineDirection}
    {B C : ByteRange × Bool} (hB : B ∈ blocks)
    (hC : C ∈ movers rope direction blocks) {s : Selection}
    (hBs : Covers B s) :
    travels rope.lenBytes s (movedBy rope C direction).1 = true ↔ C = B := by
  obtain ⟨hCmem, hCmove⟩ := mem_movers.mp hC
  have hCblock := h.each C hCmem
  obtain ⟨p, u, k, v, hparts⟩ := hCblock.exists_parts
  have hcontent := hparts.content_eq
  have hstart := hparts.start_eq
  have hstop := hparts.stop_eq
  have hs := s.start_le_stop
  have hbound := hCblock.stop_boundary.le_lenBytes
  have hlen : (k = [] ∧ C.2 = false ∧ C.1.stop = rope.lenBytes) ∨
      0 < Rope.lenBytes k := by
    cases hbreak : C.2 with
    | true =>
        right
        rcases hparts.of_break hbreak with rfl | rfl
        · exact Nat.one_pos
        · exact Nat.two_pos
    | false =>
        exact Or.inl ⟨(hparts.of_end hbreak).1, rfl,
          hCblock.stop_end hbreak⟩
  simp only [travels, ByteRange.contains, Bool.or_eq_true, Bool.and_eq_true,
    decide_eq_true_eq]
  constructor
  · intro htravel
    have hin : C.1.start ≤ s.start ∧ s.start ≤ C.1.stop := by
      cases direction with
      | up =>
          simp only [movedBy] at htravel
          rcases hlen with ⟨rfl, -, hend⟩ | hpos
          · have hs' := hBs.stop_le
            have hB' := (h.each B hB).stop_boundary.le_lenBytes
            simp only [Rope.lenBytes_nil] at hstop
            omega
          · omega
      | down =>
          simp only [movedBy] at htravel
          omega
    exact h.eq_of_covers hB hCmem hBs hin.1 hin.2
  · rintro rfl
    have h1 := hBs.start_le
    have h2 := hBs.stop_le
    have h3 := hBs.start_lt
    cases direction with
    | up =>
        simp only [movedBy]
        left
        rcases hlen with ⟨rfl, -, hend⟩ | hpos
        · simp only [Rope.lenBytes_nil] at hstop
          omega
        · cases hbreak : C.2 with
          | true =>
              have := h3 hbreak
              omega
          | false =>
              have := (hparts.of_end hbreak).1
              subst this
              simp at hpos
    | down =>
        simp only [movedBy]
        left
        have := h3 (movable_down_iff.mp hCmove).1
        omega

/-- A selection moves with its block, if that moves. -/
theorem moveSelection_eq (h : AreBlocks rope blocks)
    (direction : LineDirection) {B : ByteRange × Bool} (hB : B ∈ blocks)
    {s : Selection} (hBs : Covers B s) :
    moveSelection ((movers rope direction blocks).map
        fun C => movedBy rope C direction) rope.lenBytes s =
      if Movable rope direction B then
        ⟨((s.anchor : ℤ) + (movedBy rope B direction).2).toNat,
          ((s.head : ℤ) + (movedBy rope B direction).2).toNat⟩
      else s := by
  have hfind : ((movers rope direction blocks).map
      fun C => movedBy rope C direction).find?
        (fun d => travels rope.lenBytes s d.1) =
      if Movable rope direction B then some (movedBy rope B direction)
      else none := by
    by_cases hmove : Movable rope direction B = true
    · have hmem : B ∈ movers rope direction blocks :=
        mem_movers.mpr ⟨hB, hmove⟩
      have hone : (movers rope direction blocks).find?
          ((fun d => travels rope.lenBytes s d.1) ∘
            fun C => movedBy rope C direction) = some B := by
        cases hcase : (movers rope direction blocks).find? _ with
        | none =>
            have hno := List.find?_eq_none.mp hcase B hmem
            exact absurd ((travels_iff h hB hmem hBs).mpr rfl) hno
        | some C =>
            have hC := List.mem_of_find?_eq_some hcase
            have htravel := List.find?_some hcase
            rw [(travels_iff h hB hC hBs).mp htravel]
      rw [List.find?_map, hone, if_pos hmove]
      rfl
    · rw [if_neg hmove, List.find?_eq_none]
      intro r hr htravel
      obtain ⟨C, hC, rfl⟩ := List.mem_map.mp hr
      have := (travels_iff h hB hC hBs).mp htravel
      subst this
      exact hmove (mem_movers.mp hC).2
  rw [moveSelection]
  simp only [hfind]
  split
  · rfl
  · simp

/-! ## The text around a moved block -/

/-- The text that the moved blocks leave. -/
def MovedText (rope : Rope) (direction : LineDirection)
    (blocks : List (ByteRange × Bool)) (text : Rope) : Prop :=
  Splices Char.utf8Size 0 (((movers rope direction blocks).map
    fun B => movedEdit rope B direction).map Edit.replacement) rope text

theorem MovedText.around (h : AreBlocks rope blocks)
    {direction : LineDirection} {text : Rope}
    (htext : MovedText rope direction blocks text) {B : ByteRange × Bool}
    (hB : B ∈ movers rope direction blocks) :
    ∃ (later : List (ByteRange × Bool)) (a m b a' b' : Rope),
      (∀ C, C ∈ later ↔
        C ∈ movers rope direction blocks ∧ B.1.stop < C.1.start) ∧
      later.Pairwise (fun C D => C.1.stop < D.1.start) ∧
      rope = a ++ m ++ b ∧
      text = a' ++ (movedEdit rope B direction).text ++ b' ∧
      Rope.lenBytes a = (movedEdit rope B direction).range.start ∧
      Rope.lenBytes a + Rope.lenBytes m =
        (movedEdit rope B direction).range.stop ∧
      Rope.lenBytes a' = Rope.lenBytes a ∧
      Splices Char.utf8Size (movedEdit rope B direction).range.stop
        (later.map fun C => (movedEdit rope C direction).replacement) b b' ∧
      ∀ r : Replacement Char,
        r ∈ later.map (fun C => (movedEdit rope C direction).replacement) →
          r.Keeps Char.utf8Size := by
  have hkeep := movedEdits_keep h direction
  have hapart : (movers rope direction blocks).Pairwise
      fun C D => C.1.stop < D.1.start := h.apart.filter _
  obtain ⟨front, later, hsplit⟩ := List.append_of_mem hB
  rw [MovedText, List.map_map] at htext
  rw [List.map_map] at hkeep
  rw [hsplit, List.map_append, List.map_cons] at htext hkeep
  rw [hsplit] at hapart
  have hkeep' := List.forall_mem_append.mp hkeep
  obtain ⟨a, m, b, a', b', hrope, hnew, hs, he, hlen, hback⟩ :=
    htext.split_of_keeps hkeep'.1
  have hpair := List.pairwise_append.mp hapart
  have hcons := List.pairwise_cons.mp hpair.2.1
  rw [Nat.zero_add] at hs
  refine ⟨later, a, m, b, a', b', fun C => ?_, hcons.2, hrope, hnew, hs, ?_,
    hlen, hback, (List.forall_mem_cons.mp hkeep'.2).2⟩
  · rw [hsplit]
    constructor
    · intro hC
      exact ⟨by simp [hC], hcons.1 C hC⟩
    · rintro ⟨hC, hlt⟩
      have hle := (h.each B (mem_movers.mp hB).1).le
      rcases List.mem_append.mp hC with hfront | hback
      · have hlt' := hpair.2.2 C hfront B (by simp)
        have hCle := (h.each C (mem_movers.mp (by
          rw [hsplit]
          exact hC)).1).le
        omega
      · rcases List.mem_cons.mp hback with rfl | hback
        · omega
        · exact hback
  · rw [← hs] at he
    exact he

/-- First character of a text takes one byte, if there is one. -/
def SingleHead (text : List Char) : Prop :=
  ∀ c, text.head? = some c → c.utf8Size = 1

theorem IsBreak.exists_cons {k : Rope} (h : IsBreak k) :
    ∃ c r, k = c :: r ∧ c.utf8Size = 1 := by
  rcases h with rfl | rfl
  · exact ⟨'\n', [], rfl, rfl⟩
  · exact ⟨'\r', ['\n'], rfl, rfl⟩

theorem IsBreak.lenBytes_le {k : Rope} (h : IsBreak k) :
    1 ≤ Rope.lenBytes k ∧ Rope.lenBytes k ≤ 2 := by
  rcases h with rfl | rfl
  · exact ⟨by decide, by decide⟩
  · exact ⟨by decide, by decide⟩

/-- The places of a line break in front of which a moved-up block stops. -/
theorem boundary_above_iff {brk pc k v : Rope} (hne : brk ≠ [])
    (hsingle : ∀ c ∈ brk, c.utf8Size = 1) (hk : IsBreak k) {d : ℕ}
    (hd : d ≤ Rope.lenBytes k) :
    Rope.IsCharBoundary (brk ++ (pc ++ (k ++ v))) d ↔
      d ≤ Rope.lenBytes brk ∨ SingleHead pc := by
  obtain ⟨c, brk, rfl⟩ := List.exists_cons_of_ne_nil hne
  rw [List.forall_mem_cons] at hsingle
  have hc := hsingle.1
  have hk2 := hk.lenBytes_le
  have hd2 : d = 0 ∨ d = 1 ∨ d = 1 + 1 := by omega
  rcases hd2 with rfl | rfl | rfl
  · exact ⟨fun _ => Or.inl (Nat.zero_le _), fun _ => isBoundary_zero _⟩
  · refine ⟨fun _ => Or.inl ?_, fun _ => ?_⟩
    · rw [Rope.lenBytes_cons]
      omega
    · exact (isBoundary_one_iff Rope.utf8Size_pos _).mpr ⟨c, _, rfl, hc⟩
  · have hstep := isBoundary_cons_iff Rope.utf8Size_pos c
      (brk ++ (pc ++ (k ++ v))) 1
    rw [hc] at hstep
    rw [List.cons_append, Rope.IsCharBoundary, hstep,
      isBoundary_one_iff Rope.utf8Size_pos]
    cases brk with
    | cons d brk =>
        rw [List.forall_mem_cons] at hsingle
        have hd := hsingle.2.1
        refine ⟨fun _ => Or.inl ?_, fun _ => ⟨d, _, rfl, hd⟩⟩
        simp only [Rope.lenBytes_cons]
        omega
    | nil =>
        have hshort : ¬1 + 1 ≤ Rope.lenBytes [c] := by
          rw [Rope.lenBytes_cons, Rope.lenBytes_nil]
          omega
        cases pc with
        | nil =>
            obtain ⟨e, r, rfl, he⟩ := hk.exists_cons
            exact ⟨fun _ => Or.inr (by simp [SingleHead]),
              fun _ => ⟨e, _, rfl, he⟩⟩
        | cons e pc =>
            rw [or_iff_right hshort]
            simp [SingleHead]

/-- The places behind a block that moved down. -/
theorem boundary_below_iff {j z : Rope}
    (hj : IsBreak j ∨ j = [] ∧ z = []) {d : ℕ} (hd : d ≤ 2) :
    Rope.IsCharBoundary (j ++ z) d ↔
      d ≤ Rope.lenBytes j ∨
        0 < Rope.lenBytes j ∧ Rope.IsCharBoundary z 1 := by
  have hd2 : d = 0 ∨ d = 1 ∨ d = 1 + 1 := by omega
  rcases hj with (rfl | rfl) | ⟨rfl, rfl⟩
  · have hstep := isBoundary_cons_iff Rope.utf8Size_pos '\n' z
    rcases hd2 with rfl | rfl | rfl
    · exact ⟨fun _ => Or.inl (by decide), fun _ => isBoundary_zero _⟩
    · exact ⟨fun _ => Or.inl (by decide),
        fun _ => (hstep 0).mpr (isBoundary_zero _)⟩
    · have hlen : ¬1 + 1 ≤ Rope.lenBytes ['\n'] := by decide
      have hpos : 0 < Rope.lenBytes ['\n'] := by decide
      simp only [hlen, hpos, false_or, true_and]
      exact hstep 1
  · refine ⟨fun _ => Or.inl (by
      have : Rope.lenBytes ['\r', '\n'] = 2 := by decide
      omega), fun _ => ?_⟩
    have hstep := isBoundary_cons_iff Rope.utf8Size_pos '\r' ('\n' :: z)
    have hstep' := isBoundary_cons_iff Rope.utf8Size_pos '\n' z
    rcases hd2 with rfl | rfl | rfl
    · exact isBoundary_zero _
    · exact (hstep 0).mpr (isBoundary_zero _)
    · exact (hstep 1).mpr ((hstep' 0).mpr (isBoundary_zero _))
  · simp only [Rope.lenBytes_nil, Nat.le_zero, Nat.lt_irrefl, false_and,
      or_false, List.append_nil]
    constructor
    · intro h
      have := h.le_lenBytes
      rw [Rope.lenBytes_nil] at this
      omega
    · rintro rfl
      exact isBoundary_zero _

/-- A boundary inside the block's own text stays one. -/
theorem BlockParts.boundary_inside {p u k v : Rope} {B : ByteRange × Bool}
    (h : BlockParts rope B p u k v) {o : ℕ} (ho : rope.IsCharBoundary o)
    (hstart : B.1.start ≤ o) (hstop : o ≤ contentEnd rope B) :
    Rope.IsCharBoundary u (o - B.1.start) := by
  obtain ⟨t, t', htt, ht, -⟩ := h.content_valid.cut ho hstart hstop
  have hu := h.blockText_eq
  rw [blockText] at hu
  exact ⟨t, t', by rw [← hu]; exact htt, ht⟩

/-- The width of the break in front of a block that moves up. -/
def prevBreakLen (rope : Rope) (B : ByteRange × Bool) : ℕ :=
  Rope.lenBytes (prevLine rope B) -
    Rope.lenBytes (trimEndBreaks (prevLine rope B))

/-- Where an offset of a block lands when the block moves up. -/
theorem MovedText.boundary_up_iff (h : AreBlocks rope blocks) {text : Rope}
    (htext : MovedText rope .up blocks text) {B : ByteRange × Bool}
    (hB : B ∈ movers rope .up blocks) {o : ℕ}
    (ho : rope.IsCharBoundary o) (hstart : B.1.start ≤ o)
    (hstop : o ≤ B.1.stop) :
    text.IsCharBoundary ((o : ℤ) + (movedBy rope B .up).2).toNat ↔
      o ≤ contentEnd rope B + prevBreakLen rope B ∨
        SingleHead (trimEndBreaks (prevLine rope B)) := by
  obtain ⟨hmem, hmove⟩ := mem_movers.mp hB
  have hblock := h.each B hmem
  obtain ⟨p, u, k, v, hparts⟩ := hblock.exists_parts
  obtain ⟨p₀, pc, brk, rfl, hup⟩ :=
    hparts.exists_upParts (movable_up_iff.mp hmove)
  obtain ⟨later, a, m, b, a', b', hlater, -, hrope, rfl, hs, he, hlen,
    hback, -⟩ := htext.around h hB
  have hbrk : prevBreakLen rope B = Rope.lenBytes brk := by
    rw [prevBreakLen, hup.trim_eq, hup.prev_eq, Rope.lenBytes_append]
    omega
  have hby : (movedBy rope B .up).2 =
      -((Rope.lenBytes pc + Rope.lenBytes brk : ℕ) : ℤ) := by
    simp only [movedBy, hup.prev_eq, Rope.lenBytes_append]
  have hpstart := hparts.start_eq
  have hcontent := hparts.content_eq
  have hstop' := hparts.stop_eq
  simp only [Rope.lenBytes_append] at hpstart hcontent
  rw [hup.edit_eq hparts] at hs he ⊢
  simp only at hs he
  rw [hbrk, hup.trim_eq, hby]
  have htarget : ((o : ℤ) + -((Rope.lenBytes pc + Rope.lenBytes brk : ℕ) :
      ℤ)).toNat = Rope.lenBytes a' + (o - B.1.start) := by
    omega
  rw [htarget]
  by_cases hin : o ≤ contentEnd rope B
  · obtain ⟨t, t', rfl, ht⟩ := hparts.boundary_inside ho hstart hin
    change Rope.lenBytes t = _ at ht
    refine ⟨fun _ => Or.inl (by omega), fun _ => ?_⟩
    refine ⟨a' ++ t, t' ++ brk ++ pc ++ b', by simp, ?_⟩
    change Rope.lenBytes (a' ++ t) = _
    rw [Rope.lenBytes_append, ht]
  · -- The offset lies in the block's own break, so the block has one.
    have hbreak : B.2 = true := by
      by_contra hno
      have := (hparts.of_end (by simpa using hno)).1
      subst this
      simp only [Rope.lenBytes_nil] at hstop'
      omega
    have hk := hparts.of_break hbreak
    have hline := (hblock.stop_line hbreak).1
    have hb : b = k ++ v := by
      have hcut : a ++ m ++ b = p₀ ++ (pc ++ brk ++ u) ++ (k ++ v) := by
        rw [← hrope]
        simpa using hparts.text_eq
      refine (append_inj_of_span Rope.utf8Size_pos hcut ?_).2
      change Rope.lenBytes _ = Rope.lenBytes _
      simp only [Rope.lenBytes_append]
      omega
    subst hb
    obtain ⟨v', rfl, -⟩ := hback.skip Rope.utf8Size_pos (by
      intro r hr
      obtain ⟨C, hC, rfl⟩ := List.mem_map.mp hr
      obtain ⟨hCm, hlt⟩ := (hlater C).mp hC
      obtain ⟨hCmem, hCmove⟩ := mem_movers.mp hCm
      have := le_movedEdit_start (h.each C hCmem) hCmove hline hlt
      change contentEnd rope B + Rope.lenBytes k ≤
        (movedEdit rope C .up).range.start
      omega)
    have hsum : Rope.lenBytes a' + (o - B.1.start) =
        Rope.lenBytes (a' ++ u) + (o - contentEnd rope B) := by
      rw [Rope.lenBytes_append]
      omega
    have htext' : a' ++ (u ++ brk ++ pc) ++ (k ++ v') =
        a' ++ u ++ (brk ++ (pc ++ (k ++ v'))) := by
      simp
    rw [hsum, htext']
    refine (isBoundary_append_right_iff Rope.utf8Size_pos (a' ++ u) _ _).trans
      ((boundary_above_iff hup.brk_ne hup.brk_single hk (by omega)).trans ?_)
    constructor
    · rintro (hle | hhead)
      · exact Or.inl (by omega)
      · exact Or.inr hhead
    · rintro (hle | hhead)
      · exact Or.inl (by omega)
      · exact Or.inr hhead

/-- The character at an offset exists and takes one byte. -/
def SingleByteAt (rope : Rope) (o : ℕ) : Prop :=
  ∃ c, rope.charAt o = some c ∧ c.utf8Size = 1

theorem singleByteAt_iff {a z : Rope} (hrope : rope = a ++ z) {o : ℕ}
    (ho : Rope.lenBytes a = o) :
    SingleByteAt rope o ↔ Rope.IsCharBoundary z 1 := by
  subst hrope ho
  rw [SingleByteAt, Rope.charAt_append, Rope.IsCharBoundary,
    isBoundary_one_iff Rope.utf8Size_pos]
  constructor
  · rintro ⟨c, hc, hone⟩
    obtain ⟨ys, rfl⟩ := List.head?_eq_some_iff.mp hc
    exact ⟨c, ys, rfl, hone⟩
  · rintro ⟨c, ys, rfl, hone⟩
    exact ⟨c, rfl, hone⟩

/-- The width of the break behind the line below a block that moves down. -/
def nextBreakLen (rope : Rope) (B : ByteRange × Bool) : ℕ :=
  afterNext rope B.1.stop - rope.lineEnd B.1.stop

/-- One byte behind the break of the line below is a character boundary after
the move: the line there begins with a single byte, or the block there moves
down too and the line that takes its place does. -/
def BoundaryBelow (rope : Rope) (blocks : List (ByteRange × Bool))
    (B : ByteRange × Bool) : Prop :=
  (∃ C ∈ movers rope .down blocks, C.1.start = afterNext rope B.1.stop ∧
      SingleByteAt rope C.1.stop) ∨
    ((∀ C ∈ movers rope .down blocks,
        C.1.start ≠ afterNext rope B.1.stop) ∧
      SingleByteAt rope (afterNext rope B.1.stop))

/-- The first character of the edit of a block that moves down. -/
theorem movedEdit_down_head (h : AreBlocks rope blocks)
    {C : ByteRange × Bool} (hC : C ∈ movers rope .down blocks) (b : Rope) :
    Rope.IsCharBoundary ((movedEdit rope C .down).text ++ b) 1 ↔
      SingleByteAt rope C.1.stop := by
  obtain ⟨hmem, hmove⟩ := mem_movers.mp hC
  obtain ⟨hbreak, hlt⟩ := movable_down_iff.mp hmove
  obtain ⟨p, u, k, v, hparts⟩ := (h.each C hmem).exists_parts
  obtain ⟨n, w, rfl, hdown⟩ := hparts.exists_downParts hbreak
  obtain ⟨j, z, rfl, hj, -, -⟩ := hdown.rest
  have hlen := hparts.stop_eq_lenBytes
  rw [singleByteAt_iff hparts.text_eq hlen.symm, hdown.edit_eq hparts]
  simp only [Rope.IsCharBoundary, isBoundary_one_iff Rope.utf8Size_pos]
  cases n with
  | cons c n => simp
  | nil =>
      obtain ⟨c, k', rfl, hc⟩ := (hparts.of_break hbreak).exists_cons
      have hj' : IsBreak j := by
        rcases hj with hj | ⟨rfl, rfl⟩
        · exact hj
        · exfalso
          have htext := congrArg Rope.lenBytes hparts.text_eq
          simp only [List.append_nil] at htext
          omega
      obtain ⟨d, j', rfl, hd⟩ := hj'.exists_cons
      simp [hc, hd]

theorem boundary_behind_iff (h : AreBlocks rope blocks)
    {B : ByteRange × Bool} {later : List (ByteRange × Bool)}
    (hlater : ∀ C, C ∈ later ↔
      C ∈ movers rope .down blocks ∧ B.1.stop < C.1.start)
    (hapart : later.Pairwise fun C D => C.1.stop < D.1.start)
    (hafter : B.1.stop < afterNext rope B.1.stop)
    (hstarts : ∀ o, IsLineStart rope o → B.1.stop < o →
      afterNext rope B.1.stop ≤ o)
    {x z z' : Rope} (hrope : rope = x ++ z)
    (hx : Rope.lenBytes x = afterNext rope B.1.stop)
    (hsplices : Splices Char.utf8Size (afterNext rope B.1.stop)
      (later.map fun C => (movedEdit rope C .down).replacement) z z') :
    Rope.IsCharBoundary z' 1 ↔ BoundaryBelow rope blocks B := by
  cases later with
  | nil =>
      cases hsplices
      have hnone : ∀ C ∈ movers rope .down blocks,
          C.1.start ≠ afterNext rope B.1.stop := by
        intro C hC hstart
        exact absurd ((hlater C).mpr ⟨hC, by omega⟩) (by simp)
      rw [← singleByteAt_iff hrope hx]
      constructor
      · intro hsingle
        exact Or.inr ⟨hnone, hsingle⟩
      · rintro (⟨C, hC, hstart, -⟩ | ⟨-, hsingle⟩)
        · exact absurd hstart (hnone C hC)
        · exact hsingle
  | cons C later =>
      obtain ⟨hCm, hlt⟩ := (hlater C).mp (by simp)
      have hCblock := h.each C (mem_movers.mp hCm).1
      have hge := hstarts _ hCblock.start_line hlt
      have hfirst : ∀ D ∈ movers rope .down blocks,
          D.1.start = afterNext rope B.1.stop → D = C := by
        intro D hD hstart
        rcases List.mem_cons.mp ((hlater D).mpr ⟨hD, by omega⟩) with
          rfl | hrest
        · rfl
        · have := (List.pairwise_cons.mp hapart).1 D hrest
          have := hCblock.le
          omega
      rw [List.map_cons] at hsplices
      cases hsplices with
      | @cons _ _ _ g m b b' hs he tail =>
          change _ + Rope.lenBytes g = C.1.start at hs
          cases g with
          | nil =>
              have hstart : C.1.start = afterNext rope B.1.stop := by
                simpa using hs.symm
              rw [List.nil_append]
              refine (movedEdit_down_head h hCm b').trans ?_
              constructor
              · intro hsingle
                exact Or.inl ⟨C, hCm, hstart, hsingle⟩
              · rintro (⟨D, hD, hDstart, hsingle⟩ | ⟨hnone, -⟩)
                · rw [← hfirst D hD hDstart]
                  exact hsingle
                · exact absurd hstart (hnone C hCm)
          | cons c g =>
              have hc := Rope.utf8Size_pos c
              rw [Rope.lenBytes_cons] at hs
              have hnone : ∀ D ∈ movers rope .down blocks,
                  D.1.start ≠ afterNext rope B.1.stop := by
                intro D hD hstart
                rw [hfirst D hD hstart] at hstart
                omega
              have hsame : Rope.IsCharBoundary
                  (c :: g ++ (movedEdit rope C .down).replacement.content ++
                    b') 1 ↔ SingleByteAt rope (afterNext rope B.1.stop) := by
                rw [singleByteAt_iff hrope hx]
                simp only [Rope.IsCharBoundary,
                  isBoundary_one_iff Rope.utf8Size_pos]
                simp
              refine hsame.trans ?_
              constructor
              · intro hsingle
                exact Or.inr ⟨hnone, hsingle⟩
              · rintro (⟨D, hD, hstart, -⟩ | ⟨-, hsingle⟩)
                · exact absurd hstart (hnone D hD)
                · exact hsingle

/-- Where an offset of a block lands when the block moves down. -/
theorem MovedText.boundary_down_iff (h : AreBlocks rope blocks) {text : Rope}
    (htext : MovedText rope .down blocks text) {B : ByteRange × Bool}
    (hB : B ∈ movers rope .down blocks) {o : ℕ}
    (ho : rope.IsCharBoundary o) (hstart : B.1.start ≤ o)
    (hstop : o ≤ B.1.stop) :
    text.IsCharBoundary ((o : ℤ) + (movedBy rope B .down).2).toNat ↔
      o ≤ contentEnd rope B + nextBreakLen rope B ∨
        0 < nextBreakLen rope B ∧ BoundaryBelow rope blocks B := by
  obtain ⟨hmem, hmove⟩ := mem_movers.mp hB
  obtain ⟨hbreak, -⟩ := movable_down_iff.mp hmove
  obtain ⟨p, u, k, v, hparts⟩ := (h.each B hmem).exists_parts
  obtain ⟨n, w, rfl, hdown⟩ := hparts.exists_downParts hbreak
  obtain ⟨j, z, rfl, hj, hafter, hstarts⟩ := hdown.rest
  obtain ⟨later, a, m, b, a', b', hlater, hapart, hrope, rfl, hs, he, hlen,
    hback, hkeeps⟩ := htext.around h hB
  have hpstart := hparts.start_eq
  have hcontent := hparts.content_eq
  have hstop' := hparts.stop_eq
  have hk := hparts.of_break hbreak
  have hk2 := hk.lenBytes_le
  have hwidth : nextBreakLen rope B = Rope.lenBytes j := by
    rw [nextBreakLen, hafter, hdown.nextEnd_eq]
    omega
  have hby : (movedBy rope B .down).2 =
      ((Rope.lenBytes n + Rope.lenBytes k : ℕ) : ℤ) := by
    simp only [movedBy, hdown.next_eq, hparts.blockBreak_eq]
    push_cast
    rfl
  rw [hdown.edit_eq hparts] at hs he ⊢
  rw [hdown.edit_eq hparts] at hback
  simp only at hs he hback
  rw [hwidth, hby]
  have htarget : ((o : ℤ) + ((Rope.lenBytes n + Rope.lenBytes k : ℕ) :
      ℤ)).toNat = Rope.lenBytes (a' ++ n ++ k) + (o - B.1.start) := by
    simp only [Rope.lenBytes_append]
    omega
  rw [htarget]
  by_cases hin : o ≤ contentEnd rope B
  · obtain ⟨t, t', rfl, ht⟩ := hparts.boundary_inside ho hstart hin
    change Rope.lenBytes t = _ at ht
    refine ⟨fun _ => Or.inl (by omega), fun _ => ?_⟩
    refine ⟨a' ++ n ++ k ++ t, t' ++ b', by simp, ?_⟩
    change Rope.lenBytes (a' ++ n ++ k ++ t) = _
    rw [Rope.lenBytes_append, ht]
  · have hb : b = j ++ z := by
      have hcut : a ++ m ++ b = p ++ u ++ k ++ n ++ (j ++ z) := by
        rw [← hrope]
        simpa using hparts.text_eq
      refine (append_inj_of_span Rope.utf8Size_pos hcut ?_).2
      change Rope.lenBytes _ = Rope.lenBytes _
      simp only [Rope.lenBytes_append]
      omega
    subst hb
    have hbase : B.1.stop + Rope.lenBytes n + Rope.lenBytes j =
        afterNext rope B.1.stop := hafter.symm
    obtain ⟨z', rfl, hz'⟩ := hback.skip Rope.utf8Size_pos (by
      intro r hr
      obtain ⟨C, hC, rfl⟩ := List.mem_map.mp hr
      obtain ⟨hCm, hlt⟩ := (hlater C).mp hC
      exact (hstarts _ (h.each C (mem_movers.mp hCm).1).start_line hlt).2)
    change Splices Char.utf8Size
      (B.1.stop + Rope.lenBytes n + Rope.lenBytes j) _ z z' at hz'
    rw [hbase] at hz'
    have hj' : IsBreak j ∨ j = [] ∧ z' = [] := by
      rcases hj with hj | ⟨rfl, rfl⟩
      · exact Or.inl hj
      · have hspan := hz'.span_eq_of_keeps hkeeps
        exact Or.inr ⟨rfl,
          (span_eq_zero_iff Rope.utf8Size_pos).mp (hspan.trans span_nil)⟩
    have hsum : Rope.lenBytes (a' ++ n ++ k) + (o - B.1.start) =
        Rope.lenBytes (a' ++ n ++ k ++ u) + (o - contentEnd rope B) := by
      simp only [Rope.lenBytes_append]
      omega
    have htext' : a' ++ (n ++ k ++ u) ++ (j ++ z') =
        a' ++ n ++ k ++ u ++ (j ++ z') := by
      simp
    rw [hsum, htext']
    refine (isBoundary_append_right_iff Rope.utf8Size_pos
      (a' ++ n ++ k ++ u) _ _).trans
      ((boundary_below_iff hj' (by omega)).trans ?_)
    have hbehind : 0 < Rope.lenBytes j → (Rope.IsCharBoundary z' 1 ↔
        BoundaryBelow rope blocks B) := by
      intro hpos
      have hrope' : rope = p ++ u ++ k ++ n ++ j ++ z := by
        simpa using hparts.text_eq
      refine boundary_behind_iff h hlater hapart (by omega) (fun o ho hlt =>
        hafter ▸ (hstarts o ho hlt).2) hrope' ?_ hz'
      simp only [Rope.lenBytes_append]
      omega
    constructor
    · rintro (hle | ⟨hpos, hone⟩)
      · exact Or.inl (by omega)
      · exact Or.inr ⟨hpos, (hbehind hpos).mp hone⟩
    · rintro (hle | ⟨hpos, hone⟩)
      · exact Or.inl (by omega)
      · exact Or.inr ⟨hpos, (hbehind hpos).mpr hone⟩

end Batch

end Tempr.Editor
