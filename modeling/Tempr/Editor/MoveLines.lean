import Tempr.Editor.LineOps

/-!
# Moving lines

A block moves by swapping its text with the neighbouring line; the line break
between the two stays between them.  The text of a block moves as a whole, so a
selection inside it stays valid.  A selection that reaches into the block's own
line break lands in whatever follows the block after the move, and this module
says when that is a valid place.
-/

namespace Tempr.Editor

open Tempr.Support

/-! ## Line breaks around a block -/

/-- A line terminator. -/
def IsBreak (k : Rope) : Prop := k = ['\n'] ∨ k = ['\r', '\n']

/-- Where the content of a block ends: in front of its last line break. -/
def contentEnd (rope : Rope) (entry : ByteRange × Bool) : ℕ :=
  if entry.2 then rope.lineEnd (entry.1.stop - 1) else entry.1.stop

theorem LineStart.not_return {p q : Rope} (h : Rope.LineStart p) :
    p ≠ q ++ ['\r'] := by
  rintro rfl
  rcases h with hnil | ⟨r, hr⟩
  · simp at hnil
  · have := List.append_inj_right' hr rfl
    simp at this

/-- The last line break of a range of whole lines. -/
theorem exists_break {p : Rope} (hp : Rope.LineStart p) (body v : Rope) :
    ∃ u k, body ++ ['\n'] = u ++ k ∧ IsBreak k ∧
      Rope.lineEnd (p ++ body ++ '\n' :: v) (Rope.lenBytes (p ++ body)) =
        Rope.lenBytes (p ++ u) := by
  obtain ⟨p', q, hpq, hp', hq⟩ := Rope.exists_lineStart (p ++ body)
  have hend := Rope.lineEnd_parts hp' hq (r := []) (by simp)
    (t := '\n' :: v) (Or.inr ⟨v, rfl⟩)
  simp only [List.append_nil, ← hpq] at hend
  by_cases hcr : q.getLast? = some '\r'
  · obtain ⟨q', rfl⟩ := List.getLast?_eq_some_iff.mp hcr
    rcases List.eq_nil_or_concat' body with rfl | ⟨u, c, rfl⟩
    · exfalso
      rw [List.append_nil, ← List.append_assoc] at hpq
      exact LineStart.not_return hp hpq
    · rw [← List.append_assoc, ← List.append_assoc] at hpq
      obtain ⟨hpu, hc⟩ := List.append_inj' hpq rfl
      obtain rfl : c = '\r' := by simpa using hc
      refine ⟨u, ['\r', '\n'], by simp, Or.inr rfl, ?_⟩
      rw [hend, hpu]
      simp [Rope.lineContent, Rope.dropReturn]
  · refine ⟨body, ['\n'], rfl, Or.inl rfl, ?_⟩
    rw [hend, hpq]
    simp [Rope.lineContent, Rope.dropReturn, hcr]

/-- A block cut in front of its last line break. -/
structure BlockParts (rope : Rope) (entry : ByteRange × Bool)
    (p u k v : Rope) : Prop where
  text_eq : rope = p ++ u ++ k ++ v
  lineStart : Rope.LineStart p
  start_eq : Rope.lenBytes p = entry.1.start
  content_eq : Rope.lenBytes p + Rope.lenBytes u = contentEnd rope entry
  stop_eq : contentEnd rope entry + Rope.lenBytes k = entry.1.stop
  of_break : entry.2 = true → IsBreak k
  of_end : entry.2 = false → k = [] ∧ v = []

theorem IsBlock.exists_parts {rope : Rope} {entry : ByteRange × Bool}
    (h : IsBlock rope entry) : ∃ p u k v, BlockParts rope entry p u k v := by
  obtain ⟨p, s, hps, hp, hstart⟩ := h.start_line
  cases hbreak : entry.2 with
  | false =>
      have hstop := h.stop_end hbreak
      refine ⟨p, s, [], [], by simpa using hps, hp, hstart, ?_, ?_, ?_, ?_⟩
      · rw [contentEnd, hbreak, ← Rope.lenBytes_append, ← hps, ← hstop]
        rfl
      · rw [contentEnd, hbreak]
        rfl
      · simp [hbreak]
      · exact fun _ => ⟨rfl, rfl⟩
  | true =>
      obtain ⟨⟨P, v, hPv, hP, hstop⟩, hlt⟩ := h.stop_line hbreak
      obtain ⟨-, body, rfl⟩ := Rope.lineStart_lt (hps.symm.trans hPv) hP
        (by omega)
      obtain ⟨u, k, huk, hk, hend⟩ := exists_break hp body v
      have hrope : rope = p ++ body ++ '\n' :: v := by
        rw [hPv]
        simp
      have hlast : entry.1.stop - 1 = Rope.lenBytes (p ++ body) := by
        have hfeed : ('\n').utf8Size = 1 := rfl
        rw [← hstop]
        simp only [Rope.lenBytes_append, Rope.lenBytes_cons, hfeed]
        simp only [Rope.lenBytes_nil]
        omega
      have hcontent : contentEnd rope entry = Rope.lenBytes (p ++ u) := by
        rw [contentEnd, hbreak, if_pos rfl, hlast, hrope]
        exact hend
      refine ⟨p, u, k, v, ?_, hp, hstart, ?_, ?_, fun _ => hk, by simp [hbreak]⟩
      · rw [hPv, huk]
        simp
      · rw [hcontent, Rope.lenBytes_append]
      · rw [hcontent, ← Rope.lenBytes_append, List.append_assoc, ← huk, hstop]

/-! ## The neighbouring lines -/

/-- The line in front of a line start. -/
theorem exists_prev_line {p : Rope} (hp : Rope.LineStart p) (hne : p ≠ [])
    (v : Rope) :
    ∃ p₀ l, p = p₀ ++ (l ++ ['\n']) ∧ Rope.LineStart p₀ ∧ '\n' ∉ l ∧
      Rope.lineStartOf (p ++ v)
        (Rope.lineOf (p ++ v) (Rope.lenBytes p) - 1) = Rope.lenBytes p₀ := by
  rcases hp with hnil | ⟨q, rfl⟩
  · exact absurd hnil hne
  · obtain ⟨p₀, l, rfl, hp₀, hl⟩ := Rope.exists_lineStart q
    refine ⟨p₀, l, by simp, hp₀, hl, ?_⟩
    have hcount : (p₀ ++ l ++ ['\n']).count '\n' - 1 = p₀.count '\n' := by
      simp [Rope.count_feed_eq_zero hl]
    rw [Rope.lineOf_append, hcount, Rope.lineStartOf]
    have hcut : p₀ ++ l ++ ['\n'] ++ v = p₀ ++ (l ++ ['\n'] ++ v) := by simp
    rw [hcut]
    exact Rope.offsetForPoint_lineStart hp₀ _

/-- No line starts inside the line in front of a line start. -/
theorem lineStart_le_prev {rope p₀ l v : Rope} (hl : '\n' ∉ l)
    (hrope : rope = p₀ ++ (l ++ ['\n']) ++ v) {o : ℕ}
    (ho : IsLineStart rope o)
    (hlt : o < Rope.lenBytes (p₀ ++ (l ++ ['\n']))) :
    o ≤ Rope.lenBytes p₀ := by
  obtain ⟨p, s, hps, hp, rfl⟩ := ho
  by_contra hnot
  rw [hrope, List.append_assoc] at hps
  obtain ⟨-, body, rfl⟩ := Rope.lineStart_lt hps hp (not_le.mp hnot)
  rw [List.append_assoc p₀ _ s] at hps
  have hrest := List.append_cancel_left hps
  have hshort : Rope.lenBytes (body ++ ['\n']) <
      Rope.lenBytes (l ++ ['\n']) := by
    simp only [Rope.lenBytes_append] at hlt ⊢
    omega
  obtain ⟨m, hm, -⟩ := exists_append_of_span_le Rope.utf8Size_pos
    (a := body ++ ['\n']) (by simpa using hrest.symm) hshort.le
  -- The earlier line feed of `body` would lie in `l`.
  rcases List.eq_nil_or_concat' m with rfl | ⟨m', c, rfl⟩
  · rw [List.append_nil] at hm
    rw [hm] at hshort
    omega
  · have hmem : '\n' ∈ l := by
      rw [← List.append_assoc] at hm
      have := (List.append_inj' hm rfl).1
      rw [this]
      simp
    exact hl hmem

/-- Where the line after the line of an offset starts; the end of the text if
there is none. -/
def afterNext (rope : Rope) (o : ℕ) : ℕ :=
  if rope.lineOf o + 1 < rope.lenLines then
    rope.lineToByte (rope.lineOf o + 1)
  else rope.lenBytes

/-- The line at a line start: its content and what follows it. -/
theorem exists_next_line {P : Rope} (hP : Rope.LineStart P) (v : Rope) :
    ∃ n w, v = n ++ w ∧
      Rope.lineEnd (P ++ v) (Rope.lenBytes P) = Rope.lenBytes (P ++ n) ∧
      ∃ j z, w = j ++ z ∧ (IsBreak j ∨ j = [] ∧ z = []) ∧
        afterNext (P ++ v) (Rope.lenBytes P) = Rope.lenBytes (P ++ n ++ j) ∧
        ∀ o, IsLineStart (P ++ v) o → Rope.lenBytes P < o →
          IsBreak j ∧ Rope.lenBytes (P ++ n ++ j) ≤ o := by
  obtain ⟨r, t, rfl, hr, ht⟩ := Rope.exists_lineTail v
  have hend := Rope.lineEnd_parts hP (q := []) (by simp) hr ht
  simp only [List.nil_append, List.append_nil, List.append_assoc] at hend
  obtain ⟨r', hr', hcr⟩ := Rope.exists_lineContent r t
  have hline := Rope.lineOf_append P (r ++ t)
  have hsplit : r ++ t = Rope.lineContent r t ++ (r' ++ t) := by
    conv_lhs => rw [hr']
    simp
  refine ⟨Rope.lineContent r t, r' ++ t, hsplit, ?_, ?_⟩
  · rw [hend, Rope.lenBytes_append]
  rcases ht with rfl | ⟨z, rfl⟩
  · have hr'nil : r' = [] := by simpa [Rope.lineContent] using hr'
    have hlast : ¬P.count '\n' + 1 < Rope.lenLines (P ++ (r ++ [])) := by
      simp [Rope.lenLines, Rope.count_feed_eq_zero hr]
    refine ⟨[], [], by simp [hr'nil], Or.inr ⟨rfl, rfl⟩, ?_, ?_⟩
    · rw [afterNext, hline, if_neg hlast]
      simp [Rope.lineContent]
    · rintro o ⟨p, s, hps, hp, rfl⟩ hlt
      obtain ⟨-, body, rfl⟩ := Rope.lineStart_lt hps hp hlt
      rw [List.append_assoc P, List.append_nil] at hps
      have hrest := List.append_cancel_left hps
      rw [hrest] at hr
      simp at hr
  · have hj : IsBreak (r' ++ ['\n']) := by
      rcases hcr with rfl | rfl
      · exact Or.inl rfl
      · exact Or.inr rfl
    have hcut : P ++ Rope.lineContent r ('\n' :: z) ++ (r' ++ ['\n']) =
        P ++ r ++ ['\n'] := by
      conv_rhs => rw [hr']
      simp
    have hrope : P ++ (r ++ '\n' :: z) = P ++ r ++ ['\n'] ++ z := by simp
    refine ⟨r' ++ ['\n'], z, by simp, Or.inl hj, ?_, ?_⟩
    · have hcount : (P ++ r ++ ['\n']).count '\n' = P.count '\n' + 1 := by
        simp [Rope.count_feed_eq_zero hr]
      have hmore : P.count '\n' + 1 <
          Rope.lenLines (P ++ (r ++ '\n' :: z)) := by
        rw [← hcount, hrope]
        exact Rope.count_append_lt_lenLines _ z
      rw [afterNext, hline, if_pos hmore, hcut, ← hcount, hrope]
      exact Rope.lineToByte_append (.append_feed _) z
    · rintro o ⟨p, s, hps, hp, rfl⟩ hlt
      obtain ⟨-, body, rfl⟩ := Rope.lineStart_lt hps hp hlt
      refine ⟨hj, ?_⟩
      rw [hcut]
      -- The line feed that ends `body` is not in `r`.
      by_contra hnot
      rw [List.append_assoc P] at hps
      have hrest := List.append_cancel_left hps
      have hshort : Rope.lenBytes (body ++ ['\n']) ≤ Rope.lenBytes r := by
        have hfeed : Rope.lenBytes ['\n'] = 1 := rfl
        simp only [Rope.lenBytes_append, hfeed] at hnot ⊢
        omega
      obtain ⟨m, rfl, -⟩ := exists_append_of_span_le Rope.utf8Size_pos
        hrest.symm hshort
      simp at hr

/-! ## The edit of a moved block -/

/-- Does the block have a neighbour to swap with? -/
def Movable (rope : Rope) : LineDirection → ByteRange × Bool → Bool
  | .up, entry => entry.1.start ≠ 0
  | .down, entry => entry.2 && entry.1.stop < rope.lenBytes

def prevStart (rope : Rope) (entry : ByteRange × Bool) : ℕ :=
  rope.lineStartOf (rope.lineOf entry.1.start - 1)

/-- The line in front of a block, with its line break. -/
def prevLine (rope : Rope) (entry : ByteRange × Bool) : List Char :=
  rope.byteSlice (prevStart rope entry) entry.1.start

/-- The line behind a block, without its line break. -/
def nextLine (rope : Rope) (entry : ByteRange × Bool) : List Char :=
  rope.byteSlice entry.1.stop (rope.lineEnd entry.1.stop)

/-- A block without its last line break. -/
def blockText (rope : Rope) (entry : ByteRange × Bool) : List Char :=
  rope.byteSlice entry.1.start (contentEnd rope entry)

/-- The last line break of a block. -/
def blockBreak (rope : Rope) (entry : ByteRange × Bool) : List Char :=
  rope.byteSlice (contentEnd rope entry) entry.1.stop

/-- The edit that swaps a block with its neighbour. -/
def movedEdit (rope : Rope) (entry : ByteRange × Bool) : LineDirection → Edit
  | .up =>
      let prevContent := trimEndBreaks (prevLine rope entry)
      ⟨⟨prevStart rope entry, contentEnd rope entry⟩,
        blockText rope entry ++
          (prevLine rope entry).drop prevContent.length ++ prevContent⟩
  | .down =>
      ⟨⟨entry.1.start, rope.lineEnd entry.1.stop⟩,
        nextLine rope entry ++ blockBreak rope entry ++ blockText rope entry⟩

/-- The offsets that travel with a block, and how far. -/
def movedBy (rope : Rope) (entry : ByteRange × Bool) :
    LineDirection → ByteRange × ℤ
  | .up =>
      (⟨entry.1.start, max entry.1.stop (contentEnd rope entry + 1)⟩,
        -(Rope.lenBytes (prevLine rope entry) : ℤ))
  | .down =>
      (⟨entry.1.start, entry.1.stop⟩,
        (Rope.lenBytes (nextLine rope entry) +
          Rope.lenBytes (blockBreak rope entry) : ℤ))

theorem byteSlice_of_parts {rope a m b : Rope} (hrope : rope = a ++ m ++ b)
    {start stop : ℕ} (hstart : Rope.lenBytes a = start)
    (hstop : Rope.lenBytes a + Rope.lenBytes m = stop) :
    rope.byteSlice start stop = m := by
  subst hrope hstart hstop
  exact Rope.byteSlice_parts a m b

section Parts

variable {rope p u k v : Rope} {entry : ByteRange × Bool}

theorem BlockParts.blockText_eq (h : BlockParts rope entry p u k v) :
    blockText rope entry = u := by
  have hrope : rope = p ++ u ++ (k ++ v) := by simp [h.text_eq]
  exact byteSlice_of_parts hrope h.start_eq h.content_eq

theorem BlockParts.blockBreak_eq (h : BlockParts rope entry p u k v) :
    blockBreak rope entry = k := by
  have hcontent := h.content_eq
  have hstop := h.stop_eq
  exact byteSlice_of_parts (a := p ++ u) h.text_eq
    (by rw [Rope.lenBytes_append]; exact hcontent)
    (by rw [Rope.lenBytes_append]; omega)

/-- The text around a block that moves up: `pc ++ brk` is the line in front of
it, cut where its trailing line break begins. -/
structure UpParts (rope : Rope) (entry : ByteRange × Bool)
    (p₀ pc brk : Rope) : Prop where
  prev_eq : prevLine rope entry = pc ++ brk
  trim_eq : trimEndBreaks (prevLine rope entry) = pc
  prevStart_eq : prevStart rope entry = Rope.lenBytes p₀
  brk_ne : brk ≠ []
  brk_single : ∀ c ∈ brk, c.utf8Size = 1
  lineStart_le : ∀ o, IsLineStart rope o → o < entry.1.start →
    o ≤ Rope.lenBytes p₀

theorem BlockParts.exists_upParts (h : BlockParts rope entry p u k v)
    (hne : entry.1.start ≠ 0) :
    ∃ p₀ pc brk, p = p₀ ++ (pc ++ brk) ∧ UpParts rope entry p₀ pc brk := by
  have hp : p ≠ [] := by
    rintro rfl
    exact hne h.start_eq.symm
  have hrope : rope = p ++ (u ++ k ++ v) := by simp [h.text_eq]
  obtain ⟨p₀, l, rfl, hp₀, hl, hstart⟩ :=
    exists_prev_line h.lineStart hp (u ++ k ++ v)
  rw [← hrope, h.start_eq] at hstart
  have hprev : prevLine rope entry = l ++ ['\n'] := by
    refine byteSlice_of_parts (a := p₀) (b := u ++ k ++ v) hrope hstart.symm ?_
    rw [← Rope.lenBytes_append]
    exact h.start_eq
  let isBreak : Char → Bool := fun c => c = '\r' || c = '\n'
  have hcut := (List.rdropWhile_append_rtakeWhile (p := isBreak)
    (l := l ++ ['\n'])).symm
  refine ⟨p₀, (l ++ ['\n']).rdropWhile isBreak,
    (l ++ ['\n']).rtakeWhile isBreak, by rw [← hcut], ?_⟩
  refine ⟨by rw [hprev, ← hcut], by rw [hprev]; rfl, hstart, ?_, ?_, ?_⟩
  · rw [List.rtakeWhile_concat_pos isBreak l '\n' rfl]
    simp
  · intro c hc
    have hbreak := List.mem_rtakeWhile_imp hc
    simp only [isBreak, Bool.or_eq_true, decide_eq_true_eq] at hbreak
    rcases hbreak with rfl | rfl
    · rfl
    · rfl
  · intro o ho hlt
    rw [← h.start_eq] at hlt
    exact lineStart_le_prev hl hrope ho hlt

theorem UpParts.edit_eq (h : BlockParts rope entry p u k v)
    {p₀ pc brk : Rope} (hup : UpParts rope entry p₀ pc brk) :
    movedEdit rope entry .up =
      ⟨⟨Rope.lenBytes p₀, contentEnd rope entry⟩, u ++ brk ++ pc⟩ := by
  simp only [movedEdit, hup.trim_eq, hup.prevStart_eq, h.blockText_eq]
  rw [hup.prev_eq, List.drop_left]

/-- The text behind a block that moves down: `n` is the content of the line
there and `w` what follows it. -/
structure DownParts (rope : Rope) (entry : ByteRange × Bool)
    (n w : Rope) : Prop where
  next_eq : nextLine rope entry = n
  nextEnd_eq : rope.lineEnd entry.1.stop = entry.1.stop + Rope.lenBytes n
  rest : ∃ j z, w = j ++ z ∧ (IsBreak j ∨ j = [] ∧ z = []) ∧
    afterNext rope entry.1.stop =
      entry.1.stop + Rope.lenBytes n + Rope.lenBytes j ∧
    ∀ o, IsLineStart rope o → entry.1.stop < o →
      IsBreak j ∧ entry.1.stop + Rope.lenBytes n + Rope.lenBytes j ≤ o

theorem BlockParts.stop_eq_lenBytes (h : BlockParts rope entry p u k v) :
    entry.1.stop = Rope.lenBytes (p ++ u ++ k) := by
  have hcontent := h.content_eq
  have hstop := h.stop_eq
  simp only [Rope.lenBytes_append]
  omega

theorem BlockParts.exists_downParts (h : BlockParts rope entry p u k v)
    (hbreak : entry.2 = true) :
    ∃ n w, v = n ++ w ∧ DownParts rope entry n w := by
  have hlen := h.stop_eq_lenBytes
  have hP : Rope.LineStart (p ++ u ++ k) := by
    rcases h.of_break hbreak with rfl | rfl
    · exact .append_feed _
    · exact Or.inr ⟨p ++ u ++ ['\r'], by simp⟩
  obtain ⟨n, w, rfl, hend, j, z, hw, hj, hafter, hstarts⟩ :=
    exists_next_line hP v
  rw [← h.text_eq, ← hlen] at hend hafter hstarts
  simp only [Rope.lenBytes_append _ n, Rope.lenBytes_append _ j, ← hlen]
    at hend hafter hstarts
  refine ⟨n, w, rfl, ?_, hend, j, z, hw, hj, hafter, hstarts⟩
  have hrope : rope = p ++ u ++ k ++ n ++ w := by simp [h.text_eq]
  refine byteSlice_of_parts hrope hlen.symm ?_
  rw [← hlen, hend]

theorem DownParts.edit_eq (h : BlockParts rope entry p u k v)
    {n w : Rope} (hdown : DownParts rope entry n w) :
    movedEdit rope entry .down =
      ⟨⟨entry.1.start, entry.1.stop + Rope.lenBytes n⟩, n ++ k ++ u⟩ := by
  simp only [movedEdit, hdown.next_eq, hdown.nextEnd_eq, h.blockText_eq,
    h.blockBreak_eq]

theorem BlockParts.content_valid (h : BlockParts rope entry p u k v) :
    ByteRange.Valid rope ⟨entry.1.start, contentEnd rope entry⟩ :=
  .of_parts (b := k ++ v) (by simp [h.text_eq]) h.start_eq h.content_eq

theorem BlockParts.break_valid (h : BlockParts rope entry p u k v) :
    ByteRange.Valid rope ⟨contentEnd rope entry, entry.1.stop⟩ := by
  have hcontent := h.content_eq
  have hstop := h.stop_eq
  exact .of_parts h.text_eq (by rw [Rope.lenBytes_append]; exact hcontent)
    (by rw [Rope.lenBytes_append]; omega)

theorem UpParts.prev_valid (h : BlockParts rope entry p u k v)
    {p₀ pc brk : Rope} (hcut : p = p₀ ++ (pc ++ brk))
    (hup : UpParts rope entry p₀ pc brk) :
    ByteRange.Valid rope ⟨prevStart rope entry, entry.1.start⟩ := by
  have hstart := h.start_eq
  subst hcut
  refine .of_parts (a := p₀) (m := pc ++ brk) (b := u ++ k ++ v)
    (by simp [h.text_eq]) hup.prevStart_eq.symm ?_
  rw [← Rope.lenBytes_append]
  exact hstart

theorem DownParts.next_valid (h : BlockParts rope entry p u k v)
    {n w : Rope} (hcut : v = n ++ w) (hdown : DownParts rope entry n w) :
    ByteRange.Valid rope
      ⟨entry.1.stop, rope.lineEnd entry.1.stop⟩ := by
  have hlen := h.stop_eq_lenBytes
  subst hcut
  refine .of_parts (a := p ++ u ++ k) (m := n) (b := w)
    (by simp [h.text_eq]) hlen.symm ?_
  rw [← hlen, hdown.nextEnd_eq]

/-- `moveBlock` never fails, and moves the blocks that have a neighbour. -/
theorem Buffer.moveBlock_eq {b : Buffer} {entry : ByteRange × Bool}
    (h : IsBlock b.rope entry) (direction : LineDirection) :
    b.moveBlock direction entry =
      .ok (if Movable b.rope direction entry then
        some (movedEdit b.rope entry direction,
          movedBy b.rope entry direction)
      else none) := by
  obtain ⟨p, u, k, v, hparts⟩ := h.exists_parts
  have htext := slice_of_valid hparts.content_valid
  rw [moveBlock]
  simp only [← contentEnd.eq_1, htext]
  cases direction with
  | up =>
      by_cases hstart : entry.1.start = 0
      · simp [Movable, hstart, bind, Except.bind, pure, Except.pure]
      · obtain ⟨p₀, pc, brk, hcut, hup⟩ := hparts.exists_upParts hstart
        have hprev := slice_of_valid (hup.prev_valid hparts hcut)
        simp only [prevStart, Rope.lineOf] at hprev
        simp only [Movable, hstart, ne_eq, not_false_eq_true, decide_true,
          if_true, if_false, bind, Except.bind, hprev]
        rfl
  | down =>
      by_cases hmove : Movable b.rope .down entry = true
      · have hmove' := hmove
        simp only [Movable, Bool.and_eq_true, decide_eq_true_eq] at hmove'
        obtain ⟨n, w, hcut, hdown⟩ := hparts.exists_downParts hmove'.1
        have hnext := slice_of_valid (hdown.next_valid hparts hcut)
        have hbrk := slice_of_valid hparts.break_valid
        have hge : ¬(entry.1.stop ≥ b.len) := by
          rw [len]
          omega
        simp only [hmove, hmove'.1, hge, Bool.not_true, decide_false,
          Bool.or_self, Bool.false_eq_true, if_true, if_false, bind,
          Except.bind, hnext, hbrk]
        rfl
      · have hstay : (!entry.2 || decide (entry.1.stop ≥ b.len)) = true := by
          simp only [Movable, Bool.and_eq_true, decide_eq_true_eq] at hmove
          rw [Bool.or_eq_true, Bool.not_eq_true', decide_eq_true_eq]
          change entry.2 = false ∨ entry.1.stop ≥ b.rope.lenBytes
          by_cases hbreak : entry.2 = true
          · right
            by_contra hlt
            exact hmove ⟨hbreak, by omega⟩
          · left
            simpa using hbreak
        simp only [hmove, hstay, if_true, bind, Except.bind, pure,
          Except.pure]
        rfl

end Parts

end Tempr.Editor
