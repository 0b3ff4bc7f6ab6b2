import Mathlib.Data.List.Basic
import Mathlib.Tactic.Common

/-!
# Lists addressed by weighted offsets

A list whose elements have positive widths can be addressed by offsets that
count width rather than position.  An offset is a boundary when it falls
between two elements.  This module relates offsets to positions, and develops
the replacement of the elements between two boundaries.
-/

namespace Tempr.Support

variable {α : Type*} {w : α → ℕ}

/-- Total width of a list. -/
def span (w : α → ℕ) : List α → ℕ
  | [] => 0
  | x :: xs => w x + span w xs

@[simp] theorem span_nil : span w ([] : List α) = 0 := rfl

@[simp] theorem span_cons (x : α) (xs : List α) :
    span w (x :: xs) = w x + span w xs :=
  rfl

@[simp] theorem span_append (xs ys : List α) :
    span w (xs ++ ys) = span w xs + span w ys := by
  induction xs with
  | nil => simp
  | cons x xs ih => simp [ih, Nat.add_assoc]

/-- Position of the element that contains offset `o`; the length of the list
when `o` lies past its end. -/
def indexOf (w : α → ℕ) : List α → ℕ → ℕ
  | [], _ => 0
  | x :: xs, o => if o < w x then 0 else indexOf w xs (o - w x) + 1

/-- Offset at which position `i` starts. -/
def offsetOf (w : α → ℕ) (xs : List α) (i : ℕ) : ℕ := span w (xs.take i)

/-- Offset `o` falls between two elements of `xs`, or at one of its ends. -/
def IsBoundary (w : α → ℕ) (xs : List α) (o : ℕ) : Prop :=
  ∃ a b, xs = a ++ b ∧ span w a = o

theorem isBoundary_zero (xs : List α) : IsBoundary w xs 0 :=
  ⟨[], xs, rfl, rfl⟩

theorem isBoundary_span (xs : List α) : IsBoundary w xs (span w xs) :=
  ⟨xs, [], by simp, rfl⟩

theorem IsBoundary.le_span {xs : List α} {o : ℕ} (h : IsBoundary w xs o) :
    o ≤ span w xs := by
  obtain ⟨a, b, rfl, rfl⟩ := h
  simp

theorem isBoundary_append_left (a b : List α) :
    IsBoundary w (a ++ b) (span w a) :=
  ⟨a, b, rfl, rfl⟩

theorem IsBoundary.append_right {xs : List α} {o : ℕ}
    (h : IsBoundary w xs o) (ys : List α) : IsBoundary w (xs ++ ys) o := by
  obtain ⟨a, b, rfl, rfl⟩ := h
  exact ⟨a, b ++ ys, by simp, rfl⟩

theorem IsBoundary.append_left {ys : List α} {o : ℕ}
    (h : IsBoundary w ys o) (xs : List α) :
    IsBoundary w (xs ++ ys) (span w xs + o) := by
  obtain ⟨a, b, rfl, rfl⟩ := h
  exact ⟨xs ++ a, b, by simp, by simp⟩

theorem indexOf_le_length (xs : List α) (o : ℕ) :
    indexOf w xs o ≤ xs.length := by
  induction xs generalizing o with
  | nil => simp [indexOf]
  | cons x xs ih =>
      simp only [indexOf]
      split
      · simp
      · simpa using ih (o - w x)

section Positive

variable (hw : ∀ x, 0 < w x)

include hw in
/-- At a boundary the position is the number of elements before it. -/
theorem indexOf_append_span (a b : List α) :
    indexOf w (a ++ b) (span w a) = a.length := by
  induction a with
  | nil =>
      cases b with
      | nil => rfl
      | cons x b => simp [indexOf, hw x]
  | cons x a ih =>
      have hnot : ¬w x + span w a < w x := by omega
      simp [indexOf, hnot, ih]

/-- Every offset within an element has that element's position. -/
theorem indexOf_append_cons_add (a : List α) (x : α) (b : List α) {i : ℕ}
    (hi : i < w x) : indexOf w (a ++ x :: b) (span w a + i) = a.length := by
  induction a with
  | nil => simp [indexOf, hi]
  | cons y a ih =>
      have hnot : ¬w y + span w a + i < w y := by omega
      have hsub : w y + span w a + i - w y = span w a + i := by omega
      simp only [List.cons_append, span_cons, indexOf, hnot, if_false, hsub,
        ih, List.length_cons]

include hw in
theorem offsetOf_indexOf_eq_iff (xs : List α) (o : ℕ) :
    offsetOf w xs (indexOf w xs o) = o ↔ IsBoundary w xs o := by
  constructor
  · intro h
    exact ⟨xs.take (indexOf w xs o), xs.drop (indexOf w xs o),
      (List.take_append_drop _ _).symm, h⟩
  · rintro ⟨a, b, rfl, rfl⟩
    rw [indexOf_append_span hw]
    simp [offsetOf]

include hw in
/-- Two ways to cut a list at one offset are the same cut. -/
theorem append_inj_of_span {a b a' b' : List α}
    (h : a ++ b = a' ++ b') (hspan : span w a = span w a') :
    a = a' ∧ b = b' := by
  have hlen : a.length = a'.length := by
    rw [← indexOf_append_span hw a b, ← indexOf_append_span hw a' b', h, hspan]
  exact List.append_inj h hlen

include hw in
theorem span_eq_zero_iff {xs : List α} : span w xs = 0 ↔ xs = [] := by
  cases xs with
  | nil => simp
  | cons x xs =>
      have := hw x
      simp only [span_cons, reduceCtorEq, iff_false]
      omega

include hw in
/-- A cut below another cut also cuts the earlier part. -/
theorem exists_append_of_span_le {a b a' b' : List α}
    (h : a ++ b = a' ++ b') (hle : span w a ≤ span w a') :
    ∃ m, a' = a ++ m ∧ b = m ++ b' := by
  rcases List.append_eq_append_iff.mp h with ⟨m, ha', hb⟩ | ⟨m, ha, hb'⟩
  · exact ⟨m, ha', hb⟩
  · have hm : m = [] := by
      have hsum := congrArg (span w) ha
      rw [span_append] at hsum
      exact (span_eq_zero_iff hw).mp (by omega)
    subst hm
    exact ⟨[], by simpa using ha.symm, by simpa using hb'.symm⟩

include hw in
/-- Two ordered boundaries cut a list into three parts. -/
theorem exists_three_parts {xs : List α} {s e : ℕ}
    (hs : IsBoundary w xs s) (he : IsBoundary w xs e) (hse : s ≤ e) :
    ∃ a m b, xs = a ++ m ++ b ∧ span w a = s ∧ span w a + span w m = e := by
  obtain ⟨a, b, rfl, rfl⟩ := hs
  obtain ⟨a', b', hab, rfl⟩ := he
  obtain ⟨m, rfl, rfl⟩ := exists_append_of_span_le hw hab hse
  exact ⟨a, m, b', by simp, rfl, by simp⟩

include hw in
/-- A boundary of an appended list that lies in its right part. -/
theorem isBoundary_append_right_iff (xs ys : List α) (o : ℕ) :
    IsBoundary w (xs ++ ys) (span w xs + o) ↔ IsBoundary w ys o := by
  constructor
  · rintro ⟨a, b, hab, hspan⟩
    obtain ⟨m, rfl, rfl⟩ :=
      exists_append_of_span_le hw hab (by omega)
    refine ⟨m, b, rfl, ?_⟩
    rw [span_append] at hspan
    omega
  · intro h
    exact h.append_left xs

include hw in
theorem isBoundary_append_left_iff (xs ys : List α) {o : ℕ}
    (ho : o ≤ span w xs) :
    IsBoundary w (xs ++ ys) o ↔ IsBoundary w xs o := by
  constructor
  · rintro ⟨a, b, hab, rfl⟩
    obtain ⟨m, rfl, rfl⟩ := exists_append_of_span_le hw hab.symm ho
    exact isBoundary_append_left a m
  · intro h
    exact h.append_right ys

include hw in
/-- Boundaries of a list behind its first element. -/
theorem isBoundary_cons_iff (x : α) (xs : List α) (o : ℕ) :
    IsBoundary w (x :: xs) (w x + o) ↔ IsBoundary w xs o := by
  have := isBoundary_append_right_iff hw [x] xs o
  simpa using this

include hw in
/-- An offset of one is a boundary exactly behind an element of width one. -/
theorem isBoundary_one_iff (xs : List α) :
    IsBoundary w xs 1 ↔ ∃ x ys, xs = x :: ys ∧ w x = 1 := by
  constructor
  · rintro ⟨a, b, rfl, hspan⟩
    cases a with
    | nil => simp at hspan
    | cons x a =>
        have := hw x
        rw [span_cons] at hspan
        exact ⟨x, a ++ b, rfl, by omega⟩
  · rintro ⟨x, ys, rfl, hx⟩
    exact ⟨[x], ys, rfl, by simp [hx]⟩

end Positive

/-- The elements between two offsets. -/
def sliceOf (w : α → ℕ) (xs : List α) (s e : ℕ) : List α :=
  (xs.take (indexOf w xs e)).drop (indexOf w xs s)

/-- Replace the elements between two offsets. -/
def replaceOf (w : α → ℕ) (xs : List α) (s e : ℕ) (ys : List α) : List α :=
  xs.take (indexOf w xs s) ++ ys ++ xs.drop (indexOf w xs e)

theorem isBoundary_offsetOf (xs : List α) (i : ℕ) :
    IsBoundary w xs (offsetOf w xs i) :=
  ⟨xs.take i, xs.drop i, (List.take_append_drop i xs).symm, rfl⟩

theorem indexOf_mono (xs : List α) {s e : ℕ} (h : s ≤ e) :
    indexOf w xs s ≤ indexOf w xs e := by
  induction xs generalizing s e with
  | nil => simp [indexOf]
  | cons x xs ih =>
      simp only [indexOf]
      by_cases hs : s < w x
      · simp [hs]
      · have he : ¬e < w x := by omega
        simpa [hs, he] using ih (by omega : s - w x ≤ e - w x)

theorem offsetOf_mono (xs : List α) {i j : ℕ} (h : i ≤ j) :
    offsetOf w xs i ≤ offsetOf w xs j := by
  obtain ⟨k, rfl⟩ := Nat.exists_eq_add_of_le h
  rw [offsetOf, offsetOf, List.take_add, span_append]
  exact Nat.le_add_right _ _

/-- An element starts at or in front of every offset in it. -/
theorem offsetOf_indexOf_le (xs : List α) (o : ℕ) :
    offsetOf w xs (indexOf w xs o) ≤ o := by
  induction xs generalizing o with
  | nil => exact Nat.zero_le o
  | cons x xs ih =>
      simp only [indexOf]
      split
      · exact Nat.zero_le o
      · have := ih (o - w x)
        simp only [offsetOf, List.take_succ_cons, span_cons] at this ⊢
        omega

/-- Moving offsets to the start of their element keeps their order. -/
theorem offsetOf_indexOf_mono (xs : List α) {s e : ℕ} (h : s ≤ e) :
    offsetOf w xs (indexOf w xs s) ≤ offsetOf w xs (indexOf w xs e) :=
  offsetOf_mono xs (indexOf_mono xs h)

/-- Replacing a slice by itself changes nothing. -/
theorem replaceOf_sliceOf (xs : List α) {s e : ℕ} (h : s ≤ e) :
    replaceOf w xs s e (sliceOf w xs s e) = xs := by
  have hmono := indexOf_mono (w := w) xs h
  have hcut : xs.take (indexOf w xs s) ++
      (xs.take (indexOf w xs e)).drop (indexOf w xs s) =
        xs.take (indexOf w xs e) := by
    conv_rhs => rw [← List.take_append_drop (indexOf w xs s)
      (xs.take (indexOf w xs e)), List.take_take, Nat.min_eq_left hmono]
  rw [replaceOf, sliceOf, hcut, List.take_append_drop]

theorem sliceOf_parts (hw : ∀ x, 0 < w x) (a m b : List α) :
    sliceOf w (a ++ m ++ b) (span w a) (span w a + span w m) = m := by
  have hs : indexOf w (a ++ m ++ b) (span w a) = a.length := by
    rw [List.append_assoc, indexOf_append_span hw]
  have he : indexOf w (a ++ m ++ b) (span w a + span w m) =
      (a ++ m).length := by
    rw [← span_append, indexOf_append_span hw]
  rw [sliceOf, hs, he, List.take_left, List.drop_left]

theorem replaceOf_parts (hw : ∀ x, 0 < w x) (a m b ys : List α) :
    replaceOf w (a ++ m ++ b) (span w a) (span w a + span w m) ys =
      a ++ ys ++ b := by
  have hs : indexOf w (a ++ m ++ b) (span w a) = a.length := by
    rw [List.append_assoc, indexOf_append_span hw]
  have he : indexOf w (a ++ m ++ b) (span w a + span w m) =
      (a ++ m).length := by
    rw [← span_append, indexOf_append_span hw]
  rw [replaceOf, hs, he, List.drop_left]
  simp [List.append_assoc]

end Tempr.Support
