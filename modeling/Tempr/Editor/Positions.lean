import Tempr.Editor.Lines

/-!
# Positions

The buffer converts between three kinds of positions: byte offsets, points of a
line and a column, and offsets in UTF-16 code units, as the text services of a
platform count them.
-/

namespace Tempr.Editor

open Tempr.Support

/-- The order of points in a text. -/
def Point.Before (p p' : Point) : Prop :=
  p.line < p'.line ∨ p.line = p'.line ∧ p.column ≤ p'.column

namespace Rope

/-! ## UTF-16 -/

/-- Code units of a character in UTF-16: one, or a surrogate pair. -/
def lenUtf16 (c : Char) : ℕ := if c.toNat < 0x10000 then 1 else 2

theorem lenUtf16_pos (c : Char) : 0 < lenUtf16 c := by
  rw [lenUtf16]
  split
  · exact Nat.one_pos
  · exact Nat.two_pos

/-- Code units of a text. -/
def lenUtf16Cu (rope : Rope) : ℕ := span lenUtf16 rope

/-- Code unit at which a character starts. -/
def charToUtf16Cu (rope : Rope) (char : ℕ) : ℕ := offsetOf lenUtf16 rope char

/-- Index of the character that a code unit belongs to. -/
def utf16CuToChar (rope : Rope) (cu : ℕ) : ℕ := indexOf lenUtf16 rope cu

def offsetToUtf16 (rope : Rope) (offset : ℕ) : ℕ :=
  let ch := byteToChar rope (min offset (lenBytes rope))
  charToUtf16Cu rope ch

def offsetFromUtf16 (rope : Rope) (utf16 : ℕ) : ℕ :=
  let ch := utf16CuToChar rope (min utf16 (lenUtf16Cu rope))
  charToByte rope ch

def rangeToUtf16 (rope : Rope) (range : ByteRange) : ByteRange :=
  ⟨offsetToUtf16 rope range.start, offsetToUtf16 rope range.stop⟩

def rangeFromUtf16 (rope : Rope) (range : ByteRange) : ByteRange :=
  ⟨offsetFromUtf16 rope range.start, offsetFromUtf16 rope range.stop⟩

theorem offsetToUtf16_append (a b : Rope) :
    offsetToUtf16 (a ++ b) (lenBytes a) = lenUtf16Cu a := by
  have hmin : min (lenBytes a) (lenBytes (a ++ b)) = lenBytes a := by
    rw [lenBytes_append]
    omega
  simp only [offsetToUtf16, hmin, byteToChar_append, charToUtf16Cu, offsetOf,
    List.take_left, lenUtf16Cu]

theorem offsetFromUtf16_append (a b : Rope) :
    offsetFromUtf16 (a ++ b) (lenUtf16Cu a) = lenBytes a := by
  have hmin : min (lenUtf16Cu a) (lenUtf16Cu (a ++ b)) = lenUtf16Cu a := by
    simp only [lenUtf16Cu, span_append]
    omega
  have hchar : utf16CuToChar (a ++ b) (lenUtf16Cu a) = a.length :=
    indexOf_append_span lenUtf16_pos a b
  simp only [offsetFromUtf16, hmin, hchar, charToByte, offsetOf,
    List.take_left, lenBytes]

theorem offsetFromUtf16_offsetToUtf16 {rope : Rope} {o : ℕ}
    (h : IsCharBoundary rope o) :
    offsetFromUtf16 rope (offsetToUtf16 rope o) = o := by
  obtain ⟨a, b, rfl, rfl⟩ := h
  change offsetFromUtf16 (a ++ b) (offsetToUtf16 (a ++ b) (lenBytes a)) = _
  rw [offsetToUtf16_append, offsetFromUtf16_append]
  rfl

theorem rangeFromUtf16_rangeToUtf16 {rope : Rope} {range : ByteRange}
    (hstart : IsCharBoundary rope range.start)
    (hstop : IsCharBoundary rope range.stop) :
    rangeFromUtf16 rope (rangeToUtf16 rope range) = range := by
  simp only [rangeFromUtf16, rangeToUtf16,
    offsetFromUtf16_offsetToUtf16 hstart, offsetFromUtf16_offsetToUtf16 hstop]

theorem offsetFromUtf16_isBoundary (rope : Rope) (utf16 : ℕ) :
    IsCharBoundary rope (offsetFromUtf16 rope utf16) :=
  isBoundary_offsetOf rope _

theorem offsetFromUtf16_mono (rope : Rope) {u u' : ℕ} (h : u ≤ u') :
    offsetFromUtf16 rope u ≤ offsetFromUtf16 rope u' := by
  have hmin : min u (lenUtf16Cu rope) ≤ min u' (lenUtf16Cu rope) := by omega
  exact offsetOf_mono rope (indexOf_mono rope hmin)

/-! ## Points -/

/-- An offset between the two characters of a line's break. -/
def InsideBreak (rope : Rope) (o : ℕ) : Prop :=
  ∃ a b, rope = a ++ '\r' :: '\n' :: b ∧ o = lenBytes a + 1

/-- A line that an offset can be found on. -/
def clampLine (rope : Rope) (line : ℕ) : ℕ := min line (lenLines rope - 1)

theorem clampLine_lt (rope : Rope) (line : ℕ) :
    clampLine rope line < lenLines rope := by
  rw [clampLine, lenLines]
  omega

theorem clampLine_of_lt {rope : Rope} {line : ℕ} (h : line < lenLines rope) :
    clampLine rope line = line := by
  rw [clampLine]
  omega

theorem byteToLine_mono (rope : Rope) {o o' : ℕ} (h : o ≤ o') :
    byteToLine rope o ≤ byteToLine rope o' := by
  obtain ⟨k, hk⟩ := Nat.exists_eq_add_of_le
    (indexOf_mono (w := Char.utf8Size) rope h)
  change byteToChar rope o' = byteToChar rope o + k at hk
  rw [byteToLine, byteToLine, hk, List.take_add, List.count_append]
  exact Nat.le_add_right _ _

theorem pointForOffset_before (rope : Rope) {o o' : ℕ} (h : o ≤ o') :
    (pointForOffset rope o).Before (pointForOffset rope o') := by
  have hmin : min o (lenBytes rope) ≤ min o' (lenBytes rope) := by omega
  simp only [Point.Before, pointForOffset]
  rcases Nat.lt_or_eq_of_le (byteToLine_mono rope hmin) with hlt | heq
  · exact Or.inl hlt
  · refine Or.inr ⟨heq, ?_⟩
    rw [heq]
    exact Nat.sub_le_sub_right hmin _

/-- A line starts at a character. -/
theorem lineToByte_isBoundary {rope : Rope} {line : ℕ}
    (h : line < lenLines rope) :
    IsCharBoundary rope (lineToByte rope line) := by
  obtain ⟨p, s, rfl, hp, rfl⟩ := exists_lineStart_of_lt h
  rw [lineToByte_append hp]
  exact isBoundary_append_left p s

/-- A point stands for an offset in the content of its line. -/
theorem offsetForPoint_mem (rope : Rope) (point : Point) :
    lineToByte rope (clampLine rope point.line) ≤ offsetForPoint rope point ∧
      offsetForPoint rope point ≤
        lineToByte rope (clampLine rope point.line) +
          lineContentLen rope (clampLine rope point.line) := by
  have hstart := charToByte_of_boundary
    (lineToByte_isBoundary (clampLine_lt rope point.line))
  constructor
  · conv_lhs => rw [← hstart]
    exact offsetOf_indexOf_mono rope (Nat.le_add_right _ _)
  · refine (offsetOf_indexOf_le rope _).trans ?_
    exact Nat.add_le_add_left (min_le_right _ _) _

/-- The content of a line ends in front of the next line. -/
theorem lineContent_lt_next {rope : Rope} {line : ℕ}
    (h : line + 1 < lenLines rope) :
    lineToByte rope line + lineContentLen rope line <
      lineToByte rope (line + 1) := by
  obtain ⟨p, s, rfl, hp, rfl⟩ :=
    exists_lineStart_of_lt ((Nat.lt_succ_self line).trans h)
  obtain ⟨q, t, rfl, hq, ht⟩ := exists_lineTail s
  rcases ht with rfl | ⟨b, rfl⟩
  · rw [lenLines, List.append_nil, List.count_append, count_feed_eq_zero hq]
      at h
    omega
  have hstart := lineToByte_append hp (q ++ '\n' :: b)
  have hcontent := lineContentLen_parts hp hq (Or.inr ⟨b, rfl⟩)
  have hle := lenBytes_lineContent_le q ('\n' :: b)
  rw [← List.append_assoc] at hstart ⊢
  rw [hstart, hcontent, lineToByte_next p hq b]
  omega

theorem offsetForPoint_mono {rope : Rope} {p p' : Point}
    (hline : p'.line < lenLines rope) (h : p.Before p') :
    offsetForPoint rope p ≤ offsetForPoint rope p' := by
  rcases h with hlt | ⟨heq, hcolumn⟩
  · have hstop := (offsetForPoint_mem rope p).2
    have hstart := (offsetForPoint_mem rope p').1
    rw [clampLine_of_lt (hlt.trans hline)] at hstop
    rw [clampLine_of_lt hline] at hstart
    calc offsetForPoint rope p
        ≤ lineToByte rope p.line + lineContentLen rope p.line := hstop
      _ ≤ lineToByte rope (p.line + 1) :=
          (lineContent_lt_next (lt_of_le_of_lt hlt hline)).le
      _ ≤ lineToByte rope p'.line := lineToByte_mono hlt hline
      _ ≤ offsetForPoint rope p' := hstart
  · simp only [offsetForPoint, heq]
    apply offsetOf_indexOf_mono
    omega

/-- What is in front of an offset on its line belongs to the content of the
line, unless the offset is inside of the break. -/
theorem le_lineContent {p q r t : Rope} (ht : LineTail t)
    (hin : ¬InsideBreak (p ++ (q ++ r) ++ t) (lenBytes (p ++ q))) :
    lenBytes q ≤ lenBytes (lineContent (q ++ r) t) := by
  by_contra hlt
  obtain ⟨k, hk, hcases⟩ := exists_lineContent (q ++ r) t
  obtain ⟨m, hq, hm⟩ := exists_append_of_span_le utf8Size_pos hk.symm
    (not_le.mp hlt).le
  have hne : m ≠ [] := by
    rintro rfl
    rw [List.append_nil] at hq
    exact hlt (by rw [← hq])
  -- so the return of the break is the last character in front of the offset
  rcases hcases with rfl | rfl
  · exact hne (List.append_eq_nil_iff.mp hm.symm).1
  obtain ⟨rfl, rfl⟩ : m = ['\r'] ∧ r = [] := by
    rcases List.append_eq_singleton_iff.mp hm.symm with ⟨hnil, -⟩ | hone
    · exact absurd hnil hne
    · exact hone
  rcases ht with rfl | ⟨s, rfl⟩
  · simp [lineContent] at hk
  · refine hin ⟨p ++ lineContent (q ++ []) ('\n' :: s), s, ?_, ?_⟩
    · conv_lhs => rw [hk]
      simp
    · conv_lhs => rw [hq]
      simp only [lenBytes_append, lenBytes_cons, lenBytes_nil]
      rfl

theorem offsetForPoint_pointForOffset {rope : Rope} {o : ℕ}
    (h : IsCharBoundary rope o) (hin : ¬InsideBreak rope o) :
    offsetForPoint rope (pointForOffset rope o) = o := by
  obtain ⟨p, q, r, t, rfl, rfl, hp, hq, hr, ht⟩ := exists_line_parts h
  have hqr : '\n' ∉ q ++ r := by
    simpa only [List.mem_append, not_or] using ⟨hq, hr⟩
  have hpoint := pointForOffset_parts hp hq (r ++ t)
  have hcut : p ++ (q ++ r) ++ t = p ++ q ++ (r ++ t) := by simp
  have hline : min (p.count '\n') (lenLines (p ++ (q ++ r) ++ t) - 1) =
      p.count '\n' := by
    have := count_append_lt_lenLines p (q ++ r ++ t)
    rw [← List.append_assoc] at this
    omega
  have hstart : lineToByte (p ++ (q ++ r) ++ t) (p.count '\n') =
      lenBytes p := by
    rw [List.append_assoc]
    exact lineToByte_append hp _
  rw [← hcut] at hpoint
  rw [hpoint]
  simp only [offsetForPoint, hline, hstart, lineContentLen_parts hp hqr ht,
    Nat.min_eq_left (le_lineContent ht hin)]
  rw [← lenBytes_append]
  exact charToByte_of_boundary h

/-- A point is on its own line. -/
theorem lineOf_offsetForPoint {rope : Rope} {point : Point}
    (h : point.line < lenLines rope) :
    lineOf rope (offsetForPoint rope point) = point.line := by
  have hboundary := offsetForPoint_isBoundary rope point
  obtain ⟨hstart, hstop⟩ := offsetForPoint_mem rope point
  rw [clampLine_of_lt h] at hstart hstop
  refine Nat.le_antisymm ?_ (not_lt.mp fun hlt => ?_)
  · by_contra hlt
    have hlast := lineOf_lt_lenLines hboundary
    have hmono := lineToByte_mono (not_le.mp hlt) hlast
    have hnext := lineContent_lt_next (lt_of_le_of_lt (not_le.mp hlt) hlast)
    have := lineToByte_lineOf_le hboundary
    simp only [Nat.succ_eq_add_one] at hmono
    omega
  · have := lt_lineToByte hboundary hlt h
    omega

/-! ## All conversions -/

/-- The conversions are inverse to each other where they can be, give offsets
between characters, and keep the order of positions. -/
theorem positions_inverse (rope : Rope) :
    (∀ o, IsCharBoundary rope o → ¬InsideBreak rope o →
      offsetForPoint rope (pointForOffset rope o) = o) ∧
    (∀ point, IsCharBoundary rope (offsetForPoint rope point) ∧
      lineToByte rope (clampLine rope point.line) ≤
        offsetForPoint rope point ∧
      offsetForPoint rope point ≤
        lineToByte rope (clampLine rope point.line) +
          lineContentLen rope (clampLine rope point.line)) ∧
    (∀ o o', o ≤ o' →
      (pointForOffset rope o).Before (pointForOffset rope o')) ∧
    (∀ p p', p.line < lenLines rope → p'.line < lenLines rope →
      p.Before p' → offsetForPoint rope p ≤ offsetForPoint rope p') ∧
    (∀ o, IsCharBoundary rope o →
      offsetFromUtf16 rope (offsetToUtf16 rope o) = o) ∧
    (∀ u, IsCharBoundary rope (offsetFromUtf16 rope u) ∧
      offsetFromUtf16 rope u ≤ lenBytes rope) ∧
    ∀ u u', u ≤ u' → offsetFromUtf16 rope u ≤ offsetFromUtf16 rope u' := by
  refine ⟨fun o => offsetForPoint_pointForOffset, fun point => ?_,
    fun o o' => pointForOffset_before rope, fun p p' _ => offsetForPoint_mono,
    fun o => offsetFromUtf16_offsetToUtf16, fun u => ?_,
    fun u u' => offsetFromUtf16_mono rope⟩
  · exact ⟨offsetForPoint_isBoundary rope point, offsetForPoint_mem rope point⟩
  · have h := offsetFromUtf16_isBoundary rope u
    exact ⟨h, h.le_lenBytes⟩

end Rope

end Tempr.Editor
