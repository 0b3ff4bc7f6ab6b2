import Mathlib.Data.List.Induction
import Tempr.Editor.Buffer

/-!
# Lines

How the line functions of the buffer cut a text.  A text is cut at a line start
into the lines before it and the rest; the line there runs up to the next line
feed or to the end of the text.
-/

namespace Tempr.Editor

open Tempr.Support

namespace Rope

/-- The prefix of a text in front of one of its lines. -/
def LineStart (p : Rope) : Prop := p = [] ∨ ∃ q, p = q ++ ['\n']

/-- What follows the content of a line, up to a carriage return: nothing, or a
line feed. -/
def LineTail (t : Rope) : Prop := t = [] ∨ ∃ s, t = '\n' :: s

theorem LineStart.append_feed (q : Rope) : LineStart (q ++ ['\n']) :=
  Or.inr ⟨q, rfl⟩

/-- Drop one carriage return at the end. -/
def dropReturn (q : Rope) : Rope :=
  if q.getLast? = some '\r' then q.dropLast else q

/-- Every text splits in front of the line that it ends in. -/
theorem exists_lineStart (a : Rope) :
    ∃ p q, a = p ++ q ∧ LineStart p ∧ '\n' ∉ q := by
  induction a using List.reverseRecOn with
  | nil => exact ⟨[], [], rfl, Or.inl rfl, by simp⟩
  | append_singleton a c ih =>
      by_cases hc : c = '\n'
      · subst hc
        exact ⟨a ++ ['\n'], [], by simp, .append_feed a, by simp⟩
      · obtain ⟨p, q, rfl, hp, hq⟩ := ih
        refine ⟨p, q ++ [c], by simp, hp, ?_⟩
        simp only [List.mem_append, List.mem_singleton, not_or]
        exact ⟨hq, fun h => hc h.symm⟩

/-- Every text splits after the rest of the line that it starts in. -/
theorem exists_lineTail (b : Rope) :
    ∃ r t, b = r ++ t ∧ '\n' ∉ r ∧ LineTail t := by
  induction b with
  | nil => exact ⟨[], [], rfl, by simp, Or.inl rfl⟩
  | cons c b ih =>
      by_cases hc : c = '\n'
      · subst hc
        exact ⟨[], '\n' :: b, rfl, by simp, Or.inr ⟨b, rfl⟩⟩
      · obtain ⟨r, t, rfl, hr, ht⟩ := ih
        refine ⟨c :: r, t, rfl, ?_, ht⟩
        simp only [List.mem_cons, not_or]
        exact ⟨fun h => hc h.symm, hr⟩

theorem count_feed_eq_zero {q : Rope} (h : '\n' ∉ q) : q.count '\n' = 0 :=
  List.count_eq_zero.mpr h

/-- Behind a line feed comes the next line. -/
theorem count_line_feed (p : Rope) {q : Rope} (h : '\n' ∉ q) :
    (p ++ q ++ ['\n']).count '\n' = p.count '\n' + 1 := by
  simp [count_feed_eq_zero h]

/-! ## Line numbers -/

theorem byteToLine_append (a b : Rope) :
    byteToLine (a ++ b) (lenBytes a) = a.count '\n' := by
  rw [byteToLine, byteToChar_append, List.take_left]

theorem lineToByte_append {p : Rope} (hp : LineStart p) (s : Rope) :
    lineToByte (p ++ s) (p.count '\n') = lenBytes p := by
  induction p with
  | nil =>
      cases s with
      | nil => rfl
      | cons c s => rfl
  | cons c p ih =>
      have hlast : ∃ q, c :: p = q ++ ['\n'] := by simpa [LineStart] using hp
      have hmem : '\n' ∈ c :: p := by
        obtain ⟨q, hq⟩ := hlast
        rw [hq]
        simp
      by_cases hc : c = '\n'
      · subst hc
        have hp' : LineStart p := by
          obtain ⟨q, hq⟩ := hlast
          cases q with
          | nil => exact Or.inl (by simpa using hq)
          | cons d q => exact Or.inr ⟨q, by simpa using (List.cons.inj hq).2⟩
        rw [List.count_cons_self, List.cons_append, lineToByte, if_pos rfl,
          ih hp', lenBytes_cons]
      · have hmem' : '\n' ∈ p := by
          rcases List.mem_cons.mp hmem with h | h
          · exact absurd h.symm hc
          · exact h
        have hp' : LineStart p := by
          obtain ⟨q, hq⟩ := hlast
          cases q with
          | nil =>
              have := (List.cons.inj hq).1
              exact absurd this hc
          | cons d q => exact Or.inr ⟨q, by simpa using (List.cons.inj hq).2⟩
        obtain ⟨k, hk⟩ := Nat.exists_eq_succ_of_ne_zero
          (List.count_pos_iff.mpr hmem').ne'
        have hcount : (c :: p).count '\n' = p.count '\n' :=
          List.count_cons_of_ne (fun h => hc h)
        have ih := ih hp'
        rw [hk] at ih
        rw [hcount, hk, List.cons_append, lineToByte, if_neg hc, ih,
          lenBytes_cons]

theorem count_append_lt_lenLines (p s : Rope) :
    p.count '\n' < lenLines (p ++ s) := by
  rw [lenLines, List.count_append]
  omega

/-! ## Points -/

theorem pointForOffset_parts {p q : Rope} (hp : LineStart p) (hq : '\n' ∉ q)
    (b : Rope) :
    pointForOffset (p ++ q ++ b) (lenBytes (p ++ q)) =
      ⟨p.count '\n', lenBytes q⟩ := by
  have hmin : min (lenBytes (p ++ q)) (lenBytes (p ++ q ++ b)) =
      lenBytes (p ++ q) := by
    apply Nat.min_eq_left
    simp only [lenBytes_append]
    omega
  have hline : byteToLine (p ++ q ++ b) (lenBytes (p ++ q)) =
      p.count '\n' := by
    rw [byteToLine_append, List.count_append, count_feed_eq_zero hq,
      Nat.add_zero]
  have hstart : lineToByte (p ++ q ++ b) (p.count '\n') = lenBytes p := by
    rw [List.append_assoc]
    exact lineToByte_append hp _
  simp only [pointForOffset]
  rw [hmin, hline, hstart, lenBytes_append, Nat.add_sub_cancel_left]

theorem charAt_append_cons (a : Rope) (c : Char) (b : Rope) {i : ℕ}
    (hi : i < c.utf8Size) :
    charAt (a ++ c :: b) (lenBytes a + i) = some c := by
  have hindex : byteToChar (a ++ c :: b) (lenBytes a + i) = a.length :=
    indexOf_append_cons_add a c b hi
  rw [charAt, hindex]
  simp

theorem charAt_append (a z : Rope) : charAt (a ++ z) (lenBytes a) = z.head? := by
  rw [charAt, byteToChar_append, List.getElem?_append_right le_rfl,
    Nat.sub_self, List.head?_eq_getElem?]

/-- The last byte of a text belongs to its last character. -/
theorem charAt_snoc_pred (a : Rope) (c : Char) (b : Rope) :
    charAt (a ++ [c] ++ b) (lenBytes (a ++ [c]) - 1) = some c := by
  have hc := utf8Size_pos c
  have hbyte : lenBytes (a ++ [c]) - 1 = lenBytes a + (c.utf8Size - 1) := by
    simp only [lenBytes_append, lenBytes_cons, lenBytes_nil]
    omega
  rw [hbyte, List.append_assoc]
  exact charAt_append_cons a c b (by omega)

theorem lineContentLen_of_last {p q : Rope} (hp : LineStart p)
    (hq : '\n' ∉ q) :
    lineContentLen (p ++ q) (p.count '\n') = lenBytes q := by
  have hstart := lineToByte_append hp q
  have hlast : ¬p.count '\n' + 1 < lenLines (p ++ q) := by
    rw [lenLines, List.count_append, count_feed_eq_zero hq]
    omega
  simp only [lineContentLen, hstart, if_neg hlast, lenBytes_append,
    Nat.add_sub_cancel_left]
  rw [if_neg]
  rintro ⟨hpos, hfeed⟩
  cases q using List.reverseRecOn with
  | nil => simp at *
  | append_singleton q c =>
      have hchar := charAt_snoc_pred (p ++ q) c []
      simp only [List.append_nil, List.append_assoc, lenBytes_append] at *
      rw [hchar, Option.some.injEq] at hfeed
      subst hfeed
      simp at hq

/-- The next line starts behind the line feed. -/
theorem lineToByte_next (p : Rope) {q : Rope} (hq : '\n' ∉ q) (s : Rope) :
    lineToByte (p ++ q ++ '\n' :: s) (p.count '\n' + 1) =
      lenBytes p + lenBytes q + 1 := by
  have hfeed : ('\n').utf8Size = 1 := rfl
  have hcut : p ++ q ++ '\n' :: s = (p ++ q ++ ['\n']) ++ s := by simp
  rw [← count_line_feed p hq, hcut, lineToByte_append (.append_feed (p ++ q))]
  simp [hfeed, Nat.add_assoc]

theorem lineContentLen_of_feed {p q : Rope} (hp : LineStart p)
    (hq : '\n' ∉ q) (s : Rope) :
    lineContentLen (p ++ q ++ '\n' :: s) (p.count '\n') =
      lenBytes (dropReturn q) := by
  have hfeed : ('\n').utf8Size = 1 := rfl
  have hreturn : ('\r').utf8Size = 1 := rfl
  have hstart : lineToByte (p ++ q ++ '\n' :: s) (p.count '\n') =
      lenBytes p := by
    rw [List.append_assoc]
    exact lineToByte_append hp _
  have hmore : p.count '\n' + 1 < lenLines (p ++ q ++ '\n' :: s) := by
    rw [lenLines, List.count_append, List.count_append, List.count_cons_self]
    omega
  have hstop := lineToByte_next p hq s
  have hchar : charAt (p ++ q ++ '\n' :: s)
      (lenBytes p + lenBytes q + 1 - 1) = some '\n' := by
    have := charAt_append_cons (p ++ q) '\n' s (i := 0) (by decide)
    simpa using this
  have hlen : lenBytes p + lenBytes q + 1 - lenBytes p = lenBytes q + 1 := by
    omega
  simp only [lineContentLen, hstart, if_pos hmore, hstop, hlen,
    Nat.add_sub_cancel]
  rw [if_pos ⟨by omega, by simpa using hchar⟩]
  cases q using List.reverseRecOn with
  | nil => simp [dropReturn]
  | append_singleton q c =>
      have hc := utf8Size_pos c
      have hprev : charAt (p ++ (q ++ [c]) ++ '\n' :: s)
          (lenBytes p + lenBytes (q ++ [c]) + 1 - 2) = some c := by
        have hbyte : lenBytes p + lenBytes (q ++ [c]) + 1 - 2 =
            lenBytes (p ++ q ++ [c]) - 1 := by
          simp only [lenBytes_append]
          omega
        have := charAt_snoc_pred (p ++ q) c ('\n' :: s)
        rw [hbyte]
        simpa using this
      rw [hprev]
      by_cases hcr : c = '\r'
      · subst hcr
        simp [dropReturn, hreturn]
      · simp [dropReturn, hcr]

/-! ## Offsets of points -/

theorem offsetForPoint_isBoundary (rope : Rope) (point : Point) :
    IsCharBoundary rope (offsetForPoint rope point) :=
  isBoundary_offsetOf rope _

theorem charToByte_of_boundary {rope : Rope} {o : ℕ}
    (h : IsCharBoundary rope o) : charToByte rope (byteToChar rope o) = o :=
  (charToByte_byteToChar_eq_iff rope o).mpr h

theorem offsetForPoint_lineStart {p : Rope} (hp : LineStart p) (s : Rope) :
    offsetForPoint (p ++ s) ⟨p.count '\n', 0⟩ = lenBytes p := by
  have hline : min (p.count '\n') (lenLines (p ++ s) - 1) = p.count '\n' := by
    have := count_append_lt_lenLines p s
    omega
  simp only [offsetForPoint, hline, lineToByte_append hp, Nat.zero_min,
    Nat.add_zero]
  exact charToByte_of_boundary (isBoundary_append_left p s)

/-- The content of a line, given the line and what follows it. -/
def lineContent (q t : Rope) : Rope := if t = [] then q else dropReturn q

theorem exists_lineContent (q t : Rope) :
    ∃ r, q = lineContent q t ++ r ∧ (r = [] ∨ r = ['\r']) := by
  by_cases ht : t = []
  · exact ⟨[], by simp [lineContent, ht]⟩
  · by_cases hq : q.getLast? = some '\r'
    · obtain ⟨q', rfl⟩ := List.getLast?_eq_some_iff.mp hq
      exact ⟨['\r'], by simp [lineContent, ht, dropReturn], Or.inr rfl⟩
    · exact ⟨[], by simp [lineContent, ht, dropReturn, hq]⟩

theorem lenBytes_lineContent_le (q t : Rope) :
    lenBytes (lineContent q t) ≤ lenBytes q := by
  obtain ⟨r, hr, -⟩ := exists_lineContent q t
  conv_rhs => rw [hr, lenBytes_append]
  exact Nat.le_add_right _ _

/-- A text cut at the end of a line's content. -/
theorem exists_content_cut (p q t : Rope) :
    ∃ r, p ++ q ++ t = p ++ lineContent q t ++ (r ++ t) ∧
      (r = [] ∨ r = ['\r']) := by
  obtain ⟨r, hr, hcases⟩ := exists_lineContent q t
  refine ⟨r, ?_, hcases⟩
  conv_lhs => rw [hr]
  simp only [List.append_assoc]

theorem lineContentLen_parts {p q t : Rope} (hp : LineStart p)
    (hq : '\n' ∉ q) (ht : LineTail t) :
    lineContentLen (p ++ q ++ t) (p.count '\n') =
      lenBytes (lineContent q t) := by
  rcases ht with rfl | ⟨s, rfl⟩
  · simpa [lineContent] using lineContentLen_of_last hp hq
  · simpa [lineContent] using lineContentLen_of_feed hp hq s

/-- A column past the content of a line stands for its end. -/
theorem offsetForPoint_lineEnd {p q t : Rope} (hp : LineStart p)
    (hq : '\n' ∉ q) (ht : LineTail t) {column : ℕ}
    (hcolumn : lenBytes (p ++ q ++ t) ≤ column) :
    offsetForPoint (p ++ q ++ t) ⟨p.count '\n', column⟩ =
      lenBytes p + lenBytes (lineContent q t) := by
  obtain ⟨r', hcut, -⟩ := exists_content_cut p q t
  have hline : min (p.count '\n') (lenLines (p ++ q ++ t) - 1) =
      p.count '\n' := by
    have := count_append_lt_lenLines p (q ++ t)
    rw [← List.append_assoc] at this
    omega
  have hstart : lineToByte (p ++ q ++ t) (p.count '\n') = lenBytes p := by
    rw [List.append_assoc]
    exact lineToByte_append hp _
  have hlen := lenBytes_lineContent_le q t
  have hmin : min column (lenBytes (lineContent q t)) =
      lenBytes (lineContent q t) := by
    simp only [lenBytes_append] at hcolumn
    omega
  simp only [offsetForPoint, hline, hstart, lineContentLen_parts hp hq ht,
    hmin]
  rw [← lenBytes_append]
  exact charToByte_of_boundary ⟨p ++ lineContent q t, r' ++ t, hcut, rfl⟩

/-- The line around a character boundary, cut at the boundary. -/
theorem exists_line_parts {rope : Rope} {o : ℕ} (h : IsCharBoundary rope o) :
    ∃ p q r t, rope = p ++ (q ++ r) ++ t ∧ lenBytes (p ++ q) = o ∧
      LineStart p ∧ '\n' ∉ q ∧ '\n' ∉ r ∧ LineTail t := by
  obtain ⟨a, b, rfl, rfl⟩ := h
  obtain ⟨p, q, rfl, hp, hq⟩ := exists_lineStart a
  obtain ⟨r, t, rfl, hr, ht⟩ := exists_lineTail b
  exact ⟨p, q, r, t, by simp, rfl, hp, hq, hr, ht⟩

/-! ## Line starts in order -/

theorem LineStart.cons_feed {p : Rope} (hp : LineStart p) :
    LineStart ('\n' :: p) := by
  rcases hp with rfl | ⟨q, rfl⟩
  · exact Or.inr ⟨[], rfl⟩
  · exact Or.inr ⟨'\n' :: q, rfl⟩

/-- Every line of a text has a prefix in front of it. -/
theorem exists_lineStart_of_lt {rope : Rope} {k : ℕ}
    (h : k < lenLines rope) :
    ∃ p s, rope = p ++ s ∧ LineStart p ∧ p.count '\n' = k := by
  induction rope generalizing k with
  | nil =>
      have hk : k = 0 := by simpa [lenLines] using h
      exact ⟨[], [], rfl, Or.inl rfl, by simp [hk]⟩
  | cons c rope ih =>
      cases k with
      | zero => exact ⟨[], c :: rope, rfl, Or.inl rfl, rfl⟩
      | succ k =>
          by_cases hc : c = '\n'
          · subst hc
            obtain ⟨p, s, rfl, hp, hk⟩ := ih (k := k) (by
              simp only [lenLines, List.count_cons_self] at h ⊢
              omega)
            exact ⟨'\n' :: p, s, rfl, hp.cons_feed, by simp [hk]⟩
          · obtain ⟨p, s, rfl, hp, hk⟩ := ih (k := k + 1) (by
              simpa [lenLines, List.count_cons_of_ne hc] using h)
            refine ⟨c :: p, s, rfl, ?_, ?_⟩
            · rcases hp with rfl | ⟨q, rfl⟩
              · simp at hk
              · exact Or.inr ⟨c :: q, rfl⟩
            · rw [List.count_cons_of_ne hc, hk]

/-- The rest of a line start behind one of its prefixes. -/
theorem LineStart.suffix {p m : Rope} (h : LineStart (p ++ m)) :
    m = [] ∨ ∃ body, m = body ++ ['\n'] := by
  rcases List.eq_nil_or_concat' m with rfl | ⟨m', c, rfl⟩
  · exact Or.inl rfl
  · refine Or.inr ⟨m', ?_⟩
    rcases h with hnil | ⟨q, hq⟩
    · simp at hnil
    · rw [← List.append_assoc] at hq
      rw [(List.append_inj' hq rfl).2]

/-- Two line starts of one text: the later one contains more line feeds. -/
theorem lineStart_lt {p p' s s' : Rope} (hcut : p ++ s = p' ++ s')
    (hp' : LineStart p') (hlt : lenBytes p < lenBytes p') :
    p.count '\n' < p'.count '\n' ∧ ∃ body, p' = p ++ (body ++ ['\n']) := by
  obtain ⟨m, rfl, -⟩ := exists_append_of_span_le utf8Size_pos hcut
    (le_of_lt hlt)
  rcases hp'.suffix with rfl | ⟨body, rfl⟩
  · simp at hlt
  · refine ⟨?_, body, rfl⟩
    simp only [List.count_append, List.count_singleton_self]
    omega

theorem lineToByte_lt_iff {rope : Rope} {j k : ℕ} (hj : j < lenLines rope)
    (hk : k < lenLines rope) :
    lineToByte rope j < lineToByte rope k ↔ j < k := by
  obtain ⟨p, s, hps, hp, rfl⟩ := exists_lineStart_of_lt hj
  obtain ⟨p', s', rfl, hp', rfl⟩ := exists_lineStart_of_lt hk
  rw [lineToByte_append hp', hps, lineToByte_append hp]
  constructor
  · intro hlt
    exact (lineStart_lt hps.symm hp' hlt).1
  · intro hlt
    by_contra hnot
    rcases Nat.lt_or_eq_of_le (not_lt.mp hnot) with hgt | heq
    · have := (lineStart_lt hps hp hgt).1
      omega
    · have := (append_inj_of_span utf8Size_pos hps heq).1
      subst this
      omega

theorem lineToByte_mono {rope : Rope} {j k : ℕ} (h : j ≤ k)
    (hk : k < lenLines rope) : lineToByte rope j ≤ lineToByte rope k := by
  by_contra hnot
  have := (lineToByte_lt_iff hk (lt_of_le_of_lt h hk)).mp (not_le.mp hnot)
  omega

/-- Offset of a line start, as the points of the interface give it. -/
theorem offsetForPoint_zero {rope : Rope} {k : ℕ} (hk : k < lenLines rope) :
    offsetForPoint rope ⟨k, 0⟩ = lineToByte rope k := by
  obtain ⟨p, s, rfl, hp, rfl⟩ := exists_lineStart_of_lt hk
  rw [offsetForPoint_lineStart hp, lineToByte_append hp]

/-! ## The line of a boundary -/

/-- Line of an offset. -/
abbrev lineOf (rope : Rope) (o : ℕ) : ℕ := (pointForOffset rope o).line

section LineOf

variable {rope : Rope} {o o' : ℕ}

theorem IsCharBoundary.le_lenBytes (h : IsCharBoundary rope o) :
    o ≤ lenBytes rope :=
  h.le_span

theorem lineOf_append (a b : Rope) :
    lineOf (a ++ b) (lenBytes a) = a.count '\n' := by
  have hmin : min (lenBytes a) (lenBytes (a ++ b)) = lenBytes a := by
    rw [lenBytes_append]
    omega
  simp only [lineOf, pointForOffset, hmin]
  exact byteToLine_append a b

theorem lineOf_lt_lenLines (h : IsCharBoundary rope o) :
    lineOf rope o < lenLines rope := by
  obtain ⟨a, b, rfl, rfl⟩ := h
  change lineOf (a ++ b) (lenBytes a) < _
  rw [lineOf_append]
  exact count_append_lt_lenLines a b

theorem lineOf_mono (h : IsCharBoundary rope o) (h' : IsCharBoundary rope o')
    (hle : o ≤ o') : lineOf rope o ≤ lineOf rope o' := by
  obtain ⟨a, b, rfl, rfl⟩ := h
  obtain ⟨a', b', hab, rfl⟩ := h'
  obtain ⟨m, rfl, -⟩ := exists_append_of_span_le utf8Size_pos hab hle
  change lineOf (a ++ b) (lenBytes a) ≤ lineOf (a ++ b) (lenBytes (a ++ m))
  rw [lineOf_append, hab, lineOf_append, List.count_append]
  omega

theorem pointForOffset_column (h : IsCharBoundary rope o) :
    (pointForOffset rope o).column =
      o - lineToByte rope (lineOf rope o) := by
  have hmin : min o (lenBytes rope) = o := Nat.min_eq_left h.le_lenBytes
  simp only [lineOf, pointForOffset, hmin]

/-- A boundary lies on its line: at or behind its start, and in front of every
later line. -/
theorem lineToByte_lineOf_le (h : IsCharBoundary rope o) :
    lineToByte rope (lineOf rope o) ≤ o := by
  obtain ⟨p, q, r, t, rfl, rfl, hp, hq, -, -⟩ := exists_line_parts h
  have hpoint := pointForOffset_parts hp hq (r ++ t)
  simp only [← List.append_assoc] at hpoint ⊢
  rw [lineOf, hpoint, List.append_assoc, List.append_assoc,
    lineToByte_append hp, lenBytes_append]
  omega

theorem lt_lineToByte (h : IsCharBoundary rope o) {k : ℕ}
    (hlt : lineOf rope o < k) (hk : k < lenLines rope) :
    o < lineToByte rope k := by
  obtain ⟨p, s, rfl, hp, rfl⟩ := exists_lineStart_of_lt hk
  rw [lineToByte_append hp]
  by_contra hnot
  have := lineOf_mono (isBoundary_append_left p s) h (not_lt.mp hnot)
  change lineOf (p ++ s) (lenBytes p) ≤ _ at this
  rw [lineOf_append] at this
  omega

/-- In front of a line start comes an earlier line. -/
theorem lineOf_lt_of_lt (h : IsCharBoundary rope o) {k : ℕ}
    (hlt : o < lineToByte rope k) :
    lineOf rope o < k := by
  by_contra hnot
  have hmono := lineToByte_mono (not_lt.mp hnot) (lineOf_lt_lenLines h)
  have := lineToByte_lineOf_le h
  omega

end LineOf

end Rope

end Tempr.Editor
