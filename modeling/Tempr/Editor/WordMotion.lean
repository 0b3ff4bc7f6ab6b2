import Tempr.Editor.Motion
import Tempr.Editor.Positions
import Tempr.Support.Transition

/-!
# Words and rounds of motions

Motions by words go over the segments of a line that are not blank, and over
line breaks as motions by graphemes do.  Every motion gets to its end of the
text when it is taken again and again, and a step forward over one grapheme is
taken back by the step backward.  A move over lines is taken back by the
opposite one that keeps its column.
-/

namespace Tempr.Editor

open Tempr.Support

/-- A segmentation of texts into words and what stands between them.  Of it,
too, nothing more is known than of one into graphemes. -/
abbrev WordBounds := Graphemes

/-- The characters that `str::trim` removes: those with the property
`White_Space`. -/
def isWhitespace (c : Char) : Bool :=
  let n := c.toNat
  decide (9 ≤ n ∧ n ≤ 13 ∨ n = 0x20 ∨ n = 0x85 ∨ n = 0xA0 ∨ n = 0x1680 ∨
    0x2000 ≤ n ∧ n ≤ 0x200A ∨ n = 0x2028 ∨ n = 0x2029 ∨ n = 0x202F ∨
    n = 0x205F ∨ n = 0x3000)

/-- Nothing is left of the text when it is trimmed. -/
def isBlank (text : List Char) : Bool := text.all isWhitespace

/-- The start of the last word that begins in front of `rel`, in a line that
starts at `start`; `result` if there is none. -/
def lastWordStart (start rel : ℕ) : ℕ → List (ℕ × List Char) → ℕ
  | result, [] => result
  | result, (i, w) :: rest =>
      if i ≥ rel then result
      else
        lastWordStart start rel (if isBlank w then result else start + i) rest

namespace Rope

/-- End of the word at or after an offset. -/
def nextWordBoundary (g : Graphemes) (words : WordBounds) (rope : Rope)
    (offset : ℕ) : ℕ :=
  let offset := min offset (lenBytes rope)
  let stop := lineEnd rope offset
  if offset ≥ stop then nextGraphemeBoundary g rope offset
  else
    let start := lineStart rope offset
    let rel := offset - start
    let found := (graphemeIndices 0 (words.split (lineText rope offset))).find?
      fun (i, w) => !(decide (i + lenBytes w ≤ rel) || isBlank w)
    (found.map fun (i, w) => start + (i + lenBytes w)).getD stop

/-- Start of the word at or before an offset. -/
def prevWordBoundary (g : Graphemes) (words : WordBounds) (rope : Rope)
    (offset : ℕ) : ℕ :=
  let offset := min offset (lenBytes rope)
  let start := lineStart rope offset
  if offset ≤ start then prevGraphemeBoundary g rope offset
  else
    let rel := offset - start
    lastWordStart start rel start
      (graphemeIndices 0 (words.split (lineText rope offset)))

/-! ## Words end on boundaries -/

section Words

variable (g : Graphemes) (words : WordBounds) {rope : Rope} {o : ℕ}

/-- Both ends of a segment of the line around an offset are boundaries. -/
theorem isCharBoundary_segment (h : IsCharBoundary rope o) {i : ℕ}
    {w : List Char}
    (hw : (i, w) ∈ graphemeIndices 0 (words.split (lineText rope o))) :
    IsCharBoundary rope (lineStart rope o + i) ∧
      IsCharBoundary rope (lineStart rope o + (i + lenBytes w)) := by
  obtain ⟨p, q, r, t, rfl, rfl, hp, hq, hr, ht⟩ := exists_line_parts h
  rw [lineText_parts hp hq hr ht] at hw
  rw [lineStart_parts hp hq]
  obtain ⟨rest, hcut, -⟩ := exists_content_cut p (q ++ r) t
  rw [hcut]
  exact isCharBoundary_grapheme words hw

theorem lineStart_isBoundary (rope : Rope) (o : ℕ) :
    IsCharBoundary rope (lineStart rope o) :=
  offsetForPoint_isBoundary rope _

theorem lineEnd_isBoundary (rope : Rope) (o : ℕ) :
    IsCharBoundary rope (lineEnd rope o) :=
  offsetForPoint_isBoundary rope _

theorem lastWordStart_cases (start rel result : ℕ)
    (segments : List (ℕ × List Char)) :
    lastWordStart start rel result segments = result ∨
      ∃ i w, (i, w) ∈ segments ∧ i < rel ∧
        lastWordStart start rel result segments = start + i := by
  induction segments generalizing result with
  | nil => exact Or.inl rfl
  | cons segment rest ih =>
      obtain ⟨i, w⟩ := segment
      rw [lastWordStart]
      split
      · exact Or.inl rfl
      · next hlt =>
          rcases ih (if isBlank w then result else start + i) with
            heq | ⟨j, v, hmem, hj, heq⟩
          · rw [heq]
            split
            · exact Or.inl rfl
            · exact Or.inr ⟨i, w, by simp, by omega, rfl⟩
          · exact Or.inr ⟨j, v, List.mem_cons_of_mem _ hmem, hj, heq⟩

theorem nextWordBoundary_isBoundary (h : IsCharBoundary rope o) :
    IsCharBoundary rope (nextWordBoundary g words rope o) := by
  have hmin : min o (lenBytes rope) = o := Nat.min_eq_left h.le_lenBytes
  simp only [nextWordBoundary, hmin]
  split
  · exact nextGraphemeBoundary_isBoundary g h
  · cases hfind : (graphemeIndices 0 (words.split (lineText rope o))).find?
        fun (i, w) => !(decide (i + lenBytes w ≤ o - lineStart rope o) ||
          isBlank w) with
    | none => exact lineEnd_isBoundary rope o
    | some segment =>
        exact (isCharBoundary_segment words h
          (List.mem_of_find?_eq_some hfind)).2

theorem lt_nextWordBoundary (h : IsCharBoundary rope o)
    (hlt : o < lenBytes rope) : o < nextWordBoundary g words rope o := by
  have hmin : min o (lenBytes rope) = o := Nat.min_eq_left hlt.le
  simp only [nextWordBoundary, hmin]
  split
  · exact lt_nextGraphemeBoundary g h hlt
  · next hstop =>
      cases hfind : (graphemeIndices 0 (words.split (lineText rope o))).find?
          fun (i, w) => !(decide (i + lenBytes w ≤ o - lineStart rope o) ||
            isBlank w) with
      | none =>
          simp only [Option.map_none, Option.getD_none]
          omega
      | some segment =>
          have hbehind := List.find?_some hfind
          simp only [Bool.not_or, Bool.and_eq_true, Bool.not_eq_true',
            decide_eq_false_iff_not] at hbehind
          simp only [Option.map_some, Option.getD_some]
          omega

theorem prevWordBoundary_isBoundary (h : IsCharBoundary rope o) :
    IsCharBoundary rope (prevWordBoundary g words rope o) := by
  have hmin : min o (lenBytes rope) = o := Nat.min_eq_left h.le_lenBytes
  simp only [prevWordBoundary, hmin]
  split
  · exact prevGraphemeBoundary_isBoundary g h
  · rcases lastWordStart_cases (lineStart rope o) (o - lineStart rope o)
      (lineStart rope o)
      (graphemeIndices 0 (words.split (lineText rope o))) with
      heq | ⟨i, w, hmem, -, heq⟩
    · rw [heq]
      exact lineStart_isBoundary rope o
    · rw [heq]
      exact (isCharBoundary_segment words h hmem).1

theorem prevWordBoundary_lt (h : IsCharBoundary rope o) (hne : o ≠ 0) :
    prevWordBoundary g words rope o < o := by
  have hmin : min o (lenBytes rope) = o := Nat.min_eq_left h.le_lenBytes
  simp only [prevWordBoundary, hmin]
  split
  · exact prevGraphemeBoundary_lt g h hne
  · next hstart =>
      rcases lastWordStart_cases (lineStart rope o) (o - lineStart rope o)
        (lineStart rope o)
        (graphemeIndices 0 (words.split (lineText rope o))) with
        heq | ⟨i, w, -, hi, heq⟩
      · omega
      · omega

end Words

/-! ## Motions come to the ends of the text -/

section Reach

variable {rope : Rope} {f : ℕ → ℕ} {o : ℕ}

/-- A motion that goes on between characters comes to the end of the text. -/
theorem exists_iterate_lenBytes
    (hkeeps : ∀ o, IsCharBoundary rope o → IsCharBoundary rope (f o))
    (hlt : ∀ o, IsCharBoundary rope o → o < lenBytes rope → o < f o)
    (h : IsCharBoundary rope o) : ∃ n, f^[n] o = lenBytes rope := by
  obtain ⟨n, hn, hzero⟩ := exists_iterate_of_decreases (f := f)
    (m := fun o => lenBytes rope - o) (fun o ho hne => by
      have := hlt o ho (by omega)
      exact ⟨hkeeps o ho, by omega⟩) h
  exact ⟨n, Nat.le_antisymm hn.le_lenBytes (Nat.le_of_sub_eq_zero hzero)⟩

/-- A motion that goes back between characters comes to the start. -/
theorem exists_iterate_zero
    (hkeeps : ∀ o, IsCharBoundary rope o → IsCharBoundary rope (f o))
    (hlt : ∀ o, IsCharBoundary rope o → o ≠ 0 → f o < o)
    (h : IsCharBoundary rope o) : ∃ n, f^[n] o = 0 := by
  obtain ⟨n, -, hzero⟩ := exists_iterate_of_decreases (f := f) (m := id)
    (fun o ho hne => ⟨hkeeps o ho, hlt o ho hne⟩) h
  exact ⟨n, hzero⟩

end Reach

/-! ## A grapheme forth and back -/

/-- An offset between two graphemes of the content of a line, or at one of its
ends. -/
def IsLineGrapheme (g : Graphemes) (rope : Rope) (o : ℕ) : Prop :=
  ∃ k < lenLines rope, ∃ before after,
    g.split ((line rope k).getD []) = before ++ after ∧
      o = lineToByte rope k + lenBytes before.flatten

theorem isLineGrapheme_lineStart (g : Graphemes) {rope : Rope} {k : ℕ}
    (hk : k < lenLines rope) : IsLineGrapheme g rope (lineToByte rope k) :=
  ⟨k, hk, [], _, rfl, rfl⟩

theorem graphemeIndices_append (base : ℕ) (before after : List (List Char)) :
    graphemeIndices base (before ++ after) = graphemeIndices base before ++
      graphemeIndices (base + lenBytes before.flatten) after := by
  induction before generalizing base with
  | nil => rfl
  | cons s before ih =>
      rw [List.cons_append, graphemeIndices, ih, graphemeIndices,
        List.flatten_cons, lenBytes_append, Nat.add_assoc, List.cons_append]

theorem between_of_mem_graphemeIndices {base i : ℕ} {s : List Char}
    {gs : List (List Char)} (h : (i, s) ∈ graphemeIndices base gs) :
    base ≤ i ∧ i + lenBytes s ≤ base + lenBytes gs.flatten := by
  obtain ⟨a, b, hab, rfl⟩ := mem_graphemeIndices h
  rw [hab, lenBytes_append, lenBytes_append]
  omega

section Rounds

variable (before after : List (List Char)) {s : List Char}

/-- The first end of a segment behind the segments `before` is that of the next
one. -/
theorem find?_ends (hs : s ≠ []) :
    ((graphemeIndices 0 (before ++ s :: after)).map
        fun (i, s) => i + lenBytes s).find?
        (fun e => e > lenBytes before.flatten) =
      some (lenBytes before.flatten + lenBytes s) := by
  have hpos := lenBytes_pos hs
  rw [graphemeIndices_append, List.map_append, List.find?_append,
    List.find?_eq_none.mpr, Option.none_or, graphemeIndices, List.map_cons,
    List.find?_cons_of_pos (by simpa using hpos), Nat.zero_add]
  intro e he
  obtain ⟨⟨i, s'⟩, hmem, rfl⟩ := List.mem_map.mp he
  have := (between_of_mem_graphemeIndices hmem).2
  simp only [gt_iff_lt, decide_eq_true_eq]
  omega

/-- The last start of a segment in front of the segments `after` is that of the
one before. -/
theorem find?_starts (hs : s ≠ []) :
    ((graphemeIndices 0 (before ++ s :: after)).map Prod.fst).reverse.find?
        (fun i => i < lenBytes before.flatten + lenBytes s) =
      some (lenBytes before.flatten) := by
  have hpos := lenBytes_pos hs
  rw [graphemeIndices_append, graphemeIndices, List.map_append, List.map_cons,
    List.reverse_append, List.reverse_cons, List.append_assoc,
    List.find?_append, List.find?_eq_none.mpr, Option.none_or,
    List.singleton_append, Nat.zero_add,
    List.find?_cons_of_pos (by simpa using hpos)]
  intro i hi
  obtain ⟨⟨j, s'⟩, hmem, rfl⟩ := List.mem_map.mp (List.mem_reverse.mp hi)
  have := (between_of_mem_graphemeIndices hmem).1
  simp only [decide_eq_true_eq]
  omega

end Rounds

section Forth

variable (g : Graphemes) {p l t : Rope} (hp : LineStart p) (hl : '\n' ∉ l)
  (ht : LineTail t)

include hp hl ht in
theorem line_parts :
    line (p ++ l ++ t) (p.count '\n') = some (lineContent l t) := by
  have hline : ¬p.count '\n' ≥ lenLines (p ++ l ++ t) := by
    have := count_append_lt_lenLines p (l ++ t)
    rw [← List.append_assoc] at this
    omega
  have htext := lineText_parts (q := []) hp (by simp) hl ht
  rw [lineText, pointForOffset_line_parts hp (by simp)] at htext
  rw [List.nil_append] at htext
  rw [← htext, line, if_neg hline, Option.getD_some]

/-- The first segments of a line's content begin the line. -/
theorem exists_line_of_split {before after : List (List Char)}
    (hsplit : g.split (lineContent l t) = before ++ after) :
    lineContent l t = before.flatten ++ after.flatten ∧
      ∃ r, l = before.flatten ++ r := by
  have hcontent := g.flatten_split (lineContent l t)
  rw [hsplit, List.flatten_append] at hcontent
  obtain ⟨k, hk, -⟩ := exists_lineContent l t
  refine ⟨hcontent.symm, after.flatten ++ k, ?_⟩
  rw [← List.append_assoc, hcontent]
  exact hk

include hp hl ht in
/-- Inside of a line's content a step goes to the end of the next segment. -/
theorem nextGraphemeBoundary_inside {before after : List (List Char)}
    {s : List Char}
    (hsplit : g.split (lineContent l t) = before ++ s :: after) :
    nextGraphemeBoundary g (p ++ l ++ t)
        (lenBytes p + lenBytes before.flatten) =
      lenBytes p + (lenBytes before.flatten + lenBytes s) := by
  have hs : s ≠ [] := g.split_ne_nil (lineContent l t) s (by simp [hsplit])
  have hpos := lenBytes_pos hs
  obtain ⟨hcontent, r, hr⟩ := exists_line_of_split g hsplit
  have hqr : '\n' ∉ before.flatten ∧ '\n' ∉ r := by
    simpa only [hr, List.mem_append, not_or] using hl
  have hlen : lenBytes (lineContent l t) = lenBytes before.flatten +
      (lenBytes s + lenBytes after.flatten) := by
    rw [hcontent, List.flatten_cons, lenBytes_append, lenBytes_append]
  have hwhole := lenBytes_lineContent_le l t
  have htext := lineText_parts hp hqr.1 hqr.2 ht
  have hstart := lineStart_parts hp hqr.1 r t
  have hstop := lineEnd_parts hp hqr.1 hqr.2 ht
  rw [← hr, lenBytes_append] at htext hstart hstop
  have hmin : min (lenBytes p + lenBytes before.flatten)
      (lenBytes (p ++ l ++ t)) = lenBytes p + lenBytes before.flatten := by
    rw [lenBytes_append, lenBytes_append]
    omega
  have hend : ¬lenBytes p + lenBytes before.flatten =
      lenBytes (p ++ l ++ t) := by
    rw [lenBytes_append, lenBytes_append]
    omega
  have hbreak : ¬lenBytes p + lenBytes before.flatten ≥
      lenBytes p + lenBytes (lineContent l t) := by omega
  simp only [nextGraphemeBoundary, hmin, if_neg hend, hstop, if_neg hbreak,
    htext, hstart, hsplit, Nat.add_sub_cancel_left,
    find?_ends before after hs, Option.map_some, Option.getD_some]

include hp hl ht in
/-- And a step back goes to the start of the segment that ends there. -/
theorem prevGraphemeBoundary_inside {before after : List (List Char)}
    {s : List Char}
    (hsplit : g.split (lineContent l t) = before ++ s :: after) :
    prevGraphemeBoundary g (p ++ l ++ t)
        (lenBytes p + (lenBytes before.flatten + lenBytes s)) =
      lenBytes p + lenBytes before.flatten := by
  have hs : s ≠ [] := g.split_ne_nil (lineContent l t) s (by simp [hsplit])
  have hpos := lenBytes_pos hs
  have hsplit' : g.split (lineContent l t) = (before ++ [s]) ++ after := by
    simp [hsplit]
  have hflatten : (before ++ [s]).flatten = before.flatten ++ s := by simp
  obtain ⟨-, r, hr⟩ := exists_line_of_split g hsplit'
  rw [hflatten] at hr
  have hqr : '\n' ∉ before.flatten ++ s ∧ '\n' ∉ r := by
    simpa only [hr, List.mem_append, not_or] using hl
  have htext := lineText_parts hp hqr.1 hqr.2 ht
  have hstart := lineStart_parts hp hqr.1 r t
  rw [← hr, lenBytes_append, lenBytes_append] at htext hstart
  have hmin : min (lenBytes p + (lenBytes before.flatten + lenBytes s))
      (lenBytes (p ++ l ++ t)) =
        lenBytes p + (lenBytes before.flatten + lenBytes s) := by
    rw [hr]
    simp only [lenBytes_append]
    omega
  have hzero : ¬lenBytes p + (lenBytes before.flatten + lenBytes s) = 0 := by
    omega
  have hbehind : ¬lenBytes p + (lenBytes before.flatten + lenBytes s) ≤
      lenBytes p := by omega
  simp only [prevGraphemeBoundary, hmin, if_neg hzero, hstart, if_neg hbehind,
    htext, hsplit, Nat.add_sub_cancel_left, find?_starts before after hs,
    Option.map_some, Option.getD_some]

include hp hl in
/-- From the end of a line's content a step goes to the next line. -/
theorem nextGraphemeBoundary_break (b : Rope) :
    nextGraphemeBoundary g (p ++ l ++ '\n' :: b)
        (lenBytes p + lenBytes (lineContent l ('\n' :: b))) =
      lenBytes (p ++ l ++ ['\n']) := by
  have ht : LineTail ('\n' :: b) := Or.inr ⟨b, rfl⟩
  obtain ⟨k, hk, -⟩ := exists_lineContent l ('\n' :: b)
  have hck : '\n' ∉ lineContent l ('\n' :: b) ∧ '\n' ∉ k := by
    rw [hk] at hl
    simpa only [List.mem_append, not_or] using hl
  have hpoint := pointForOffset_line_parts hp hck.1 k ('\n' :: b)
  have hstop := lineEnd_parts hp hck.1 hck.2 ht
  rw [← hk, lenBytes_append] at hpoint hstop
  have hwhole := lenBytes_lineContent_le l ('\n' :: b)
  have hfeed : '\n'.utf8Size = 1 := rfl
  have hmin : min (lenBytes p + lenBytes (lineContent l ('\n' :: b)))
      (lenBytes (p ++ l ++ '\n' :: b)) =
        lenBytes p + lenBytes (lineContent l ('\n' :: b)) := by
    rw [lenBytes_append, lenBytes_append]
    omega
  have hend : ¬lenBytes p + lenBytes (lineContent l ('\n' :: b)) =
      lenBytes (p ++ l ++ '\n' :: b) := by
    rw [lenBytes_append, lenBytes_append, lenBytes_cons]
    omega
  have hcut : p ++ l ++ '\n' :: b = p ++ l ++ ['\n'] ++ b := by simp
  have hcount := count_line_feed p hl
  have hmore : p.count '\n' + 1 < lenLines (p ++ l ++ '\n' :: b) := by
    have := count_append_lt_lenLines (p ++ l ++ ['\n']) b
    rwa [hcount, ← hcut] at this
  have hnext := offsetForPoint_lineStart (.append_feed (p ++ l)) b
  rw [hcount, ← hcut] at hnext
  simp only [nextGraphemeBoundary, hmin, if_neg hend, hstop, ge_iff_le,
    le_refl, if_true, hpoint, if_pos hmore, hnext]

include hp hl in
/-- And from there a step back goes to the end of that content. -/
theorem prevGraphemeBoundary_break (b : Rope) :
    prevGraphemeBoundary g (p ++ l ++ '\n' :: b)
        (lenBytes (p ++ l ++ ['\n'])) =
      lenBytes p + lenBytes (lineContent l ('\n' :: b)) := by
  have hcut : p ++ l ++ '\n' :: b = p ++ l ++ ['\n'] ++ ([] ++ b) ++ [] := by
    simp
  have hp' : LineStart (p ++ l ++ ['\n']) := .append_feed (p ++ l)
  have hcount : (p ++ l ++ ['\n']).count '\n' - 1 = p.count '\n' := by
    rw [count_line_feed p hl, Nat.add_sub_cancel]
  have hpoint := pointForOffset_line_parts hp' (q := []) (by simp) b []
  have hstart := lineStart_parts hp' (q := []) (by simp) b []
  rw [← hcut, List.append_nil] at hpoint hstart
  have hfeed : '\n'.utf8Size = 1 := rfl
  have hmin : min (lenBytes (p ++ l ++ ['\n']))
      (lenBytes (p ++ l ++ '\n' :: b)) = lenBytes (p ++ l ++ ['\n']) := by
    simp only [lenBytes_append, lenBytes_cons, lenBytes_nil]
    omega
  have hzero : ¬lenBytes (p ++ l ++ ['\n']) = 0 := by
    simp only [lenBytes_append, lenBytes_cons]
    omega
  simp only [prevGraphemeBoundary, hmin, if_neg hzero, hstart, le_refl,
    if_true, hpoint, hcount]
  exact offsetForPoint_lineEnd hp hl (Or.inr ⟨b, rfl⟩) le_rfl

end Forth

/-- A step forward over a grapheme or a line break is taken back by a step
backward. -/
theorem prev_nextGraphemeBoundary (g : Graphemes) {rope : Rope} {o : ℕ}
    (h : IsLineGrapheme g rope o) (hlt : o < lenBytes rope) :
    prevGraphemeBoundary g rope (nextGraphemeBoundary g rope o) = o := by
  obtain ⟨k, hk, before, after, hsplit, rfl⟩ := h
  obtain ⟨p, rest, rfl, hp, rfl⟩ := exists_lineStart_of_lt hk
  obtain ⟨l, t, rfl, hl, ht⟩ := exists_lineTail rest
  rw [lineToByte_append hp] at hlt ⊢
  rw [← List.append_assoc] at hsplit hlt ⊢
  rw [line_parts hp hl ht, Option.getD_some] at hsplit
  cases after with
  | cons s after =>
      rw [nextGraphemeBoundary_inside g hp hl ht hsplit,
        prevGraphemeBoundary_inside g hp hl ht hsplit]
  | nil =>
      have hcontent := g.flatten_split (lineContent l t)
      rw [hsplit, List.append_nil] at hcontent
      rw [hcontent] at hlt ⊢
      rcases ht with rfl | ⟨b, rfl⟩
      · simp [lineContent] at hlt
      · rw [nextGraphemeBoundary_break g hp hl,
          prevGraphemeBoundary_break g hp hl]

/-- All motions end between characters, go their way up to an end of the text,
and a step over a grapheme can be taken back. -/
theorem motions_exact (g : Graphemes) (words : WordBounds) (rope : Rope) :
    (∀ f ∈ [nextGraphemeBoundary g rope, prevGraphemeBoundary g rope,
        nextWordBoundary g words rope, prevWordBoundary g words rope],
      ∀ o, IsCharBoundary rope o →
        IsCharBoundary rope (f o) ∧ f o ≤ lenBytes rope) ∧
    (∀ f ∈ [nextGraphemeBoundary g rope, nextWordBoundary g words rope],
      ∀ o, IsCharBoundary rope o →
        (o < lenBytes rope → o < f o) ∧ ∃ n, f^[n] o = lenBytes rope) ∧
    (∀ f ∈ [prevGraphemeBoundary g rope, prevWordBoundary g words rope],
      ∀ o, IsCharBoundary rope o →
        (o ≠ 0 → f o < o) ∧ ∃ n, f^[n] o = 0) ∧
    ∀ o, (∃ k < lenLines rope, o = lineToByte rope k) ∨
        IsLineGrapheme g rope o →
      o < lenBytes rope →
        prevGraphemeBoundary g rope (nextGraphemeBoundary g rope o) = o := by
  have hnext : ∀ o, IsCharBoundary rope o →
      IsCharBoundary rope (nextGraphemeBoundary g rope o) :=
    fun _ => nextGraphemeBoundary_isBoundary g
  have hprev : ∀ o, IsCharBoundary rope o →
      IsCharBoundary rope (prevGraphemeBoundary g rope o) :=
    fun _ => prevGraphemeBoundary_isBoundary g
  have hnextWord : ∀ o, IsCharBoundary rope o →
      IsCharBoundary rope (nextWordBoundary g words rope o) :=
    fun _ => nextWordBoundary_isBoundary g words
  have hprevWord : ∀ o, IsCharBoundary rope o →
      IsCharBoundary rope (prevWordBoundary g words rope o) :=
    fun _ => prevWordBoundary_isBoundary g words
  simp only [List.forall_mem_cons, List.not_mem_nil, false_implies,
    implies_true, and_true]
  refine ⟨⟨?_, ?_, ?_, ?_⟩, ⟨?_, ?_⟩, ⟨?_, ?_⟩, ?_⟩
  · exact fun o h => ⟨hnext o h, (hnext o h).le_lenBytes⟩
  · exact fun o h => ⟨hprev o h, (hprev o h).le_lenBytes⟩
  · exact fun o h => ⟨hnextWord o h, (hnextWord o h).le_lenBytes⟩
  · exact fun o h => ⟨hprevWord o h, (hprevWord o h).le_lenBytes⟩
  · exact fun o h => ⟨lt_nextGraphemeBoundary g h,
      exists_iterate_lenBytes hnext (fun _ => lt_nextGraphemeBoundary g) h⟩
  · exact fun o h => ⟨lt_nextWordBoundary g words h,
      exists_iterate_lenBytes hnextWord (fun _ => lt_nextWordBoundary g words)
        h⟩
  · exact fun o h => ⟨prevGraphemeBoundary_lt g h,
      exists_iterate_zero hprev (fun _ => prevGraphemeBoundary_lt g) h⟩
  · exact fun o h => ⟨prevWordBoundary_lt g words h,
      exists_iterate_zero hprevWord (fun _ => prevWordBoundary_lt g words) h⟩
  · rintro o (⟨k, hk, rfl⟩ | h) hlt
    · exact prev_nextGraphemeBoundary g (isLineGrapheme_lineStart g hk) hlt
    · exact prev_nextGraphemeBoundary g h hlt

/-! ## Moves over lines -/

/-- Move by `delta` lines to the goal column, else to the column of the offset.
The second part is the goal column of the next move. -/
def moveVertically (rope : Rope) (offset : ℕ) (delta : ℤ)
    (goalColumn : Option ℕ) : ℕ × ℕ :=
  let p := pointForOffset rope offset
  let goal := goalColumn.getD p.column
  let last := lenLines rope - 1
  let line := (max 0 (min (p.line + delta) last)).toNat
  (offsetForPoint rope ⟨line, goal⟩, goal)

theorem moveVertically_isBoundary (rope : Rope) (o : ℕ) (delta : ℤ)
    (goalColumn : Option ℕ) :
    IsCharBoundary rope (moveVertically rope o delta goalColumn).1 :=
  offsetForPoint_isBoundary rope _

/-- A move that stays in the text goes to the line it is asked for. -/
theorem moveVertically_eq {rope : Rope} {o line : ℕ} {delta : ℤ}
    (hline : lineOf rope o + delta = line) (hlt : line < lenLines rope)
    (goal : ℕ) :
    moveVertically rope o delta (some goal) =
      (offsetForPoint rope ⟨line, goal⟩, goal) := by
  have hclamped : (max 0 (min (lineOf rope o + delta)
      ((lenLines rope - 1 : ℕ) : ℤ))).toNat = line := by omega
  simp only [moveVertically, Option.getD_some, hclamped]

theorem moveVertically_none (rope : Rope) (o : ℕ) (delta : ℤ) :
    moveVertically rope o delta none =
      moveVertically rope o delta (some (pointForOffset rope o).column) := rfl

/-- From there the opposite move with the goal column leads back, also when the
line in between is shorter. -/
theorem moveVertically_back {rope : Rope} {o line : ℕ} {delta : ℤ}
    (h : IsCharBoundary rope o) (hin : ¬InsideBreak rope o)
    (hline : lineOf rope o + delta = line) (hlt : line < lenLines rope) :
    moveVertically rope (moveVertically rope o delta none).1 (-delta)
        (some (moveVertically rope o delta none).2) =
      (o, (pointForOffset rope o).column) := by
  have hthere : lineOf rope
      (offsetForPoint rope ⟨line, (pointForOffset rope o).column⟩) = line :=
    lineOf_offsetForPoint hlt
  have hback : (lineOf rope
      (offsetForPoint rope ⟨line, (pointForOffset rope o).column⟩) : ℤ) +
        -delta = lineOf rope o := by
    rw [hthere]
    omega
  rw [moveVertically_none, moveVertically_eq hline hlt,
    moveVertically_eq hback (lineOf_lt_lenLines h)]
  exact Prod.ext (offsetForPoint_pointForOffset h hin) rfl

end Rope

end Tempr.Editor
