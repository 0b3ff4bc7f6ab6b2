import Tempr.Editor.Lines

/-!
# Cursor motions

Motions over a text, all in byte offsets.  Grapheme clusters come from a
segmentation library, which is a parameter here: all that is known of it is
that it cuts a text into consecutive nonempty segments.
-/

namespace Tempr.Editor

open Tempr.Support

/-- A segmentation of texts into grapheme clusters. -/
structure Graphemes where
  split : List Char → List (List Char)
  flatten_split : ∀ text, (split text).flatten = text
  split_ne_nil : ∀ text, ∀ g ∈ split text, g ≠ []

/-- Every character is a segment of its own, as in a text of plain letters. -/
def charGraphemes : Graphemes where
  split text := text.map fun c => [c]
  flatten_split text := by
    induction text with
    | nil => rfl
    | cons c text ih => simpa using ih
  split_ne_nil text g hg := by
    obtain ⟨c, -, rfl⟩ := List.mem_map.mp hg
    simp

/-- The segments of a text with the byte offsets at which they start. -/
def graphemeIndices : ℕ → List (List Char) → List (ℕ × List Char)
  | _, [] => []
  | i, g :: gs => (i, g) :: graphemeIndices (i + Rope.lenBytes g) gs

namespace Rope

def lineStartOf (rope : Rope) (line : ℕ) : ℕ := offsetForPoint rope ⟨line, 0⟩

/-- The column is larger than that of any point of the text. -/
def lineEndOf (rope : Rope) (line : ℕ) : ℕ :=
  offsetForPoint rope ⟨line, lenBytes rope⟩

def lineStart (rope : Rope) (offset : ℕ) : ℕ :=
  lineStartOf rope (pointForOffset rope offset).line

def lineEnd (rope : Rope) (offset : ℕ) : ℕ :=
  lineEndOf rope (pointForOffset rope offset).line

/-- A line without its terminator. -/
def line (rope : Rope) (line : ℕ) : Option (List Char) :=
  if line ≥ lenLines rope then none
  else
    let start := lineToByte rope line
    some (byteSlice rope start (start + lineContentLen rope line))

def lineText (rope : Rope) (offset : ℕ) : List Char :=
  (line rope (pointForOffset rope offset).line).getD []

/-- Next grapheme boundary; crosses line breaks. -/
def nextGraphemeBoundary (g : Graphemes) (rope : Rope) (offset : ℕ) : ℕ :=
  let offset := min offset (lenBytes rope)
  if offset = lenBytes rope then offset
  else
    let stop := lineEnd rope offset
    if offset ≥ stop then
      let p := pointForOffset rope offset
      if p.line + 1 < lenLines rope then offsetForPoint rope ⟨p.line + 1, 0⟩
      else lenBytes rope
    else
      let start := lineStart rope offset
      let rel := offset - start
      let ends := (graphemeIndices 0 (g.split (lineText rope offset))).map
        fun (i, s) => i + lenBytes s
      ((ends.find? fun e => e > rel).map fun e => start + e).getD stop

/-- Previous grapheme boundary; crosses line breaks. -/
def prevGraphemeBoundary (g : Graphemes) (rope : Rope) (offset : ℕ) : ℕ :=
  let offset := min offset (lenBytes rope)
  if offset = 0 then 0
  else
    let start := lineStart rope offset
    if offset ≤ start then
      let p := pointForOffset rope offset
      offsetForPoint rope ⟨p.line - 1, lenBytes rope⟩
    else
      let rel := offset - start
      let starts := (graphemeIndices 0 (g.split (lineText rope offset))).map
        Prod.fst
      ((starts.reverse.find? fun i => i < rel).map fun i => start + i).getD
        start

/-! ## Lines around a boundary -/

section Around

variable {p q r t : Rope} (hp : LineStart p) (hq : '\n' ∉ q) (hr : '\n' ∉ r)
  (ht : LineTail t)

include hp hq in
theorem pointForOffset_line_parts (r t : Rope) :
    pointForOffset (p ++ (q ++ r) ++ t) (lenBytes (p ++ q)) =
      ⟨p.count '\n', lenBytes q⟩ := by
  have := pointForOffset_parts hp hq (r ++ t)
  simpa [List.append_assoc] using this

include hp hq in
theorem lineStart_parts (r t : Rope) :
    lineStart (p ++ (q ++ r) ++ t) (lenBytes (p ++ q)) = lenBytes p := by
  rw [lineStart, pointForOffset_line_parts hp hq, lineStartOf,
    List.append_assoc]
  exact offsetForPoint_lineStart hp _

include hp hq hr ht in
theorem lineEnd_parts :
    lineEnd (p ++ (q ++ r) ++ t) (lenBytes (p ++ q)) =
      lenBytes p + lenBytes (lineContent (q ++ r) t) := by
  have hqr : '\n' ∉ q ++ r := by
    simpa only [List.mem_append, not_or] using ⟨hq, hr⟩
  rw [lineEnd, pointForOffset_line_parts hp hq, lineEndOf]
  exact offsetForPoint_lineEnd hp hqr ht le_rfl

include hp hq hr ht in
theorem lineText_parts :
    lineText (p ++ (q ++ r) ++ t) (lenBytes (p ++ q)) =
      lineContent (q ++ r) t := by
  have hqr : '\n' ∉ q ++ r := by
    simpa only [List.mem_append, not_or] using ⟨hq, hr⟩
  have hline : ¬p.count '\n' ≥ lenLines (p ++ (q ++ r) ++ t) := by
    have := count_append_lt_lenLines p (q ++ r ++ t)
    rw [← List.append_assoc] at this
    omega
  have hstart : lineToByte (p ++ (q ++ r) ++ t) (p.count '\n') =
      lenBytes p := by
    rw [List.append_assoc]
    exact lineToByte_append hp _
  obtain ⟨rest, hcut, -⟩ := exists_content_cut p (q ++ r) t
  rw [lineText, pointForOffset_line_parts hp hq, line, if_neg hline]
  simp only [hstart, lineContentLen_parts hp hqr ht, Option.getD_some]
  conv_lhs => rw [hcut]
  exact byteSlice_parts p _ _

end Around

/-! ## Motions end on boundaries -/

theorem mem_graphemeIndices {base i : ℕ} {s : List Char}
    {gs : List (List Char)} (h : (i, s) ∈ graphemeIndices base gs) :
    ∃ a b, gs.flatten = a ++ s ++ b ∧ i = base + lenBytes a := by
  induction gs generalizing base with
  | nil => simp [graphemeIndices] at h
  | cons g gs ih =>
      rw [graphemeIndices, List.mem_cons] at h
      rcases h with h | h
      · obtain ⟨rfl, rfl⟩ := Prod.mk.inj h
        exact ⟨[], gs.flatten, by simp, by simp⟩
      · obtain ⟨a, b, hab, rfl⟩ := ih h
        refine ⟨g ++ a, b, ?_, ?_⟩
        · rw [List.flatten_cons, hab]
          simp
        · rw [lenBytes_append]
          omega

/-- Both ends of a segment of a line are boundaries of the text. -/
theorem isCharBoundary_grapheme (g : Graphemes) {p c t : Rope} {i : ℕ}
    {s : List Char} (h : (i, s) ∈ graphemeIndices 0 (g.split c)) :
    IsCharBoundary (p ++ c ++ t) (lenBytes p + i) ∧
      IsCharBoundary (p ++ c ++ t) (lenBytes p + (i + lenBytes s)) := by
  obtain ⟨a, b, hab, rfl⟩ := mem_graphemeIndices h
  rw [g.flatten_split] at hab
  subst hab
  refine ⟨⟨p ++ a, s ++ b ++ t, by simp, ?_⟩,
    ⟨p ++ a ++ s, b ++ t, by simp, ?_⟩⟩
  · change lenBytes (p ++ a) = _
    rw [lenBytes_append]
    omega
  · change lenBytes (p ++ a ++ s) = _
    rw [lenBytes_append, lenBytes_append]
    omega

theorem nextGraphemeBoundary_isBoundary (g : Graphemes) {rope : Rope}
    {o : ℕ} (h : IsCharBoundary rope o) :
    IsCharBoundary rope (nextGraphemeBoundary g rope o) := by
  have hmin : min o (lenBytes rope) = o := Nat.min_eq_left h.le_lenBytes
  simp only [nextGraphemeBoundary, hmin]
  split
  · exact h
  · split
    · split
      · exact offsetForPoint_isBoundary rope _
      · exact isBoundary_span rope
    · cases hfind : ((graphemeIndices 0 (g.split (lineText rope o))).map
          fun (i, s) => i + lenBytes s).find? fun e =>
            e > o - lineStart rope o with
      | none => exact offsetForPoint_isBoundary rope _
      | some e =>
          obtain ⟨⟨i, s⟩, hmem, rfl⟩ :=
            List.mem_map.mp (List.mem_of_find?_eq_some hfind)
          obtain ⟨p, q, r, t, rfl, rfl, hp, hq, hr, ht⟩ := exists_line_parts h
          rw [lineText_parts hp hq hr ht] at hmem
          rw [lineStart_parts hp hq]
          obtain ⟨rest, hcut, -⟩ := exists_content_cut p (q ++ r) t
          rw [hcut]
          exact (isCharBoundary_grapheme g hmem).2

theorem prevGraphemeBoundary_isBoundary (g : Graphemes) {rope : Rope}
    {o : ℕ} (h : IsCharBoundary rope o) :
    IsCharBoundary rope (prevGraphemeBoundary g rope o) := by
  have hmin : min o (lenBytes rope) = o := Nat.min_eq_left h.le_lenBytes
  simp only [prevGraphemeBoundary, hmin]
  split
  · exact isBoundary_zero rope
  · split
    · exact offsetForPoint_isBoundary rope _
    · cases hfind : ((graphemeIndices 0 (g.split (lineText rope o))).map
          Prod.fst).reverse.find? fun i => i < o - lineStart rope o with
      | none => exact offsetForPoint_isBoundary rope _
      | some e =>
          obtain ⟨⟨i, s⟩, hmem, rfl⟩ := List.mem_map.mp
            (List.mem_reverse.mp (List.mem_of_find?_eq_some hfind))
          obtain ⟨p, q, r, t, rfl, rfl, hp, hq, hr, ht⟩ := exists_line_parts h
          rw [lineText_parts hp hq hr ht] at hmem
          rw [lineStart_parts hp hq]
          obtain ⟨rest, hcut, -⟩ := exists_content_cut p (q ++ r) t
          rw [hcut]
          exact (isCharBoundary_grapheme g hmem).1

/-! ## Motions go their way -/

/-- The content of the line before a line start ends in front of it. -/
theorem lineEnd_before_lt {p : Rope} (hp : LineStart p) (hne : p ≠ [])
    (b : Rope) :
    offsetForPoint (p ++ b) ⟨p.count '\n' - 1, lenBytes (p ++ b)⟩ <
      lenBytes p := by
  obtain ⟨body, rfl⟩ := hp.resolve_left hne
  obtain ⟨p₀, l, rfl, hp₀, hl⟩ := exists_lineStart body
  have hcount : (p₀ ++ l ++ ['\n']).count '\n' - 1 = p₀.count '\n' := by
    rw [count_line_feed p₀ hl, Nat.add_sub_cancel]
  have hcut : p₀ ++ l ++ ['\n'] ++ b = p₀ ++ l ++ '\n' :: b := by simp
  have hle := lenBytes_lineContent_le l ('\n' :: b)
  have hfeed : '\n'.utf8Size = 1 := rfl
  rw [hcount, hcut, offsetForPoint_lineEnd hp₀ hl (Or.inr ⟨b, rfl⟩) le_rfl]
  simp only [lenBytes_append, lenBytes_cons, lenBytes_nil, hfeed]
  omega

theorem prevGraphemeBoundary_lt (g : Graphemes) {rope : Rope} {o : ℕ}
    (h : IsCharBoundary rope o) (hne : o ≠ 0) :
    prevGraphemeBoundary g rope o < o := by
  have hmin : min o (lenBytes rope) = o := Nat.min_eq_left h.le_lenBytes
  simp only [prevGraphemeBoundary, hmin, if_neg hne]
  split
  · next hstart =>
      obtain ⟨p, q, r, t, rfl, rfl, hp, hq, -, -⟩ := exists_line_parts h
      rw [lineStart_parts hp hq, lenBytes_append] at hstart
      have hnil : q = [] := by
        cases q with
        | nil => rfl
        | cons c q =>
            have := utf8Size_pos c
            rw [lenBytes_cons] at hstart
            omega
      subst hnil
      rw [pointForOffset_line_parts hp hq, List.append_nil]
      have hp' : p ≠ [] := by
        rintro rfl
        exact hne rfl
      have hlt := lineEnd_before_lt hp hp' ([] ++ r ++ t)
      rwa [← List.append_assoc] at hlt
  · next hstart =>
      cases hfind : ((graphemeIndices 0 (g.split (lineText rope o))).map
          Prod.fst).reverse.find? fun i => i < o - lineStart rope o with
      | none =>
          simp only [Option.map_none, Option.getD_none]
          omega
      | some i =>
          have hlt := List.find?_some hfind
          simp only [decide_eq_true_eq] at hlt
          simp only [Option.map_some, Option.getD_some]
          omega

@[simp] theorem prevGraphemeBoundary_zero (g : Graphemes) (rope : Rope) :
    prevGraphemeBoundary g rope 0 = 0 := by
  simp [prevGraphemeBoundary]

theorem prevGraphemeBoundary_le (g : Graphemes) {rope : Rope} {o : ℕ}
    (h : IsCharBoundary rope o) : prevGraphemeBoundary g rope o ≤ o := by
  by_cases hne : o = 0
  · rw [hne, prevGraphemeBoundary_zero]
  · exact (prevGraphemeBoundary_lt g h hne).le

theorem lt_nextGraphemeBoundary (g : Graphemes) {rope : Rope} {o : ℕ}
    (h : IsCharBoundary rope o) (hlt : o < lenBytes rope) :
    o < nextGraphemeBoundary g rope o := by
  have hmin : min o (lenBytes rope) = o := Nat.min_eq_left hlt.le
  simp only [nextGraphemeBoundary, hmin, if_neg hlt.ne]
  split
  · split
    · next hline =>
        rw [offsetForPoint_zero hline]
        exact lt_lineToByte h (Nat.lt_succ_self _) hline
    · exact hlt
  · next hstop =>
      cases hfind : ((graphemeIndices 0 (g.split (lineText rope o))).map
          fun (i, s) => i + lenBytes s).find? fun e =>
            e > o - lineStart rope o with
      | none =>
          simp only [Option.map_none, Option.getD_none]
          omega
      | some e =>
          have hlt := List.find?_some hfind
          simp only [gt_iff_lt, decide_eq_true_eq] at hlt
          simp only [Option.map_some, Option.getD_some]
          omega

@[simp] theorem nextGraphemeBoundary_lenBytes (g : Graphemes) (rope : Rope) :
    nextGraphemeBoundary g rope (lenBytes rope) = lenBytes rope := by
  simp [nextGraphemeBoundary]

theorem le_nextGraphemeBoundary (g : Graphemes) {rope : Rope} {o : ℕ}
    (h : IsCharBoundary rope o) : o ≤ nextGraphemeBoundary g rope o := by
  rcases Nat.lt_or_eq_of_le h.le_lenBytes with hlt | heq
  · exact (lt_nextGraphemeBoundary g h hlt).le
  · rw [heq, nextGraphemeBoundary_lenBytes]

end Rope

end Tempr.Editor
