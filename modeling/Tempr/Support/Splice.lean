import Tempr.Support.Weighted
import Mathlib.Algebra.BigOperators.Group.List.Basic
import Mathlib.Tactic.Linarith

/-!
# Replacing several ranges of a weighted list

A batch of replacements is given by ranges of the original list.  When the
ranges are in order and disjoint, the batch has one meaning, which this module
states in three ways: the ranges are spliced out from left to right, the
replacements are applied one after the other from the right, or every element
is kept, dropped or preceded by new text according to its own offset.
-/

namespace Tempr.Support

variable {α : Type*} {w : α → ℕ}

/-- A range of offsets of a list together with its new content. -/
structure Replacement (α : Type*) where
  start : ℕ
  stop : ℕ
  content : List α

namespace Replacement

/-- `r` ends no later than `s` starts. -/
def Precedes (r s : Replacement α) : Prop := r.stop ≤ s.start

/-- Both ends of the range fall between elements of `xs`, in order. -/
structure Fits (w : α → ℕ) (xs : List α) (r : Replacement α) : Prop where
  ordered : r.start ≤ r.stop
  start_boundary : IsBoundary w xs r.start
  stop_boundary : IsBoundary w xs r.stop

/-- Apply one replacement to a list. -/
def apply (w : α → ℕ) (xs : List α) (r : Replacement α) : List α :=
  replaceOf w xs r.start r.stop r.content

/-- Growth of a list under one replacement. -/
def shift (w : α → ℕ) (r : Replacement α) : ℤ :=
  span w r.content - (r.stop - r.start : ℤ)

end Replacement

/-- `Splices w base rs xs ys`: the list `xs`, which starts at offset `base`,
becomes `ys` when the ordered and disjoint ranges of `rs` are replaced. -/
inductive Splices (w : α → ℕ) :
    ℕ → List (Replacement α) → List α → List α → Prop
  | nil (base : ℕ) (xs : List α) : Splices w base [] xs xs
  | cons {base : ℕ} {r : Replacement α} {rs : List (Replacement α)}
      {a m b b' : List α} (hstart : base + span w a = r.start)
      (hstop : r.start + span w m = r.stop)
      (tail : Splices w r.stop rs b b') :
      Splices w base (r :: rs) (a ++ m ++ b) (a ++ r.content ++ b')

theorem Splices.base_le {base : ℕ} {rs : List (Replacement α)}
    {xs ys : List α} (h : Splices w base rs xs ys) :
    ∀ r ∈ rs, base ≤ r.start := by
  induction h with
  | nil => simp
  | cons hstart hstop tail ih =>
      intro r hr
      rcases List.mem_cons.mp hr with rfl | hr
      · omega
      · have := ih r hr
        omega

/-- Text in front of all the ranges is kept. -/
theorem Splices.prepend {base : ℕ} {rs : List (Replacement α)}
    {xs ys : List α} (k : List α) (h : Splices w (base + span w k) rs xs ys) :
    Splices w base rs (k ++ xs) (k ++ ys) := by
  cases h with
  | nil => exact .nil _ _
  | @cons _ r rs a m b b' hstart hstop tail =>
      have hfront : base + span w (k ++ a) = r.start := by
        rw [span_append]
        omega
      have hsplices := Splices.cons hfront hstop tail
      simpa only [List.append_assoc] using hsplices

/-- Growth of a list under all the replacements. -/
theorem Splices.span_eq {base : ℕ} {rs : List (Replacement α)}
    {xs ys : List α} (h : Splices w base rs xs ys) :
    (span w ys : ℤ) = span w xs + (rs.map (Replacement.shift w)).sum := by
  induction h with
  | nil => simp
  | cons hstart hstop tail ih =>
      simp only [span_append, List.map_cons, List.sum_cons, Replacement.shift]
      omega

/-- The list around one of the spliced ranges.  The ranges in front of it are
spliced out of the part before it. -/
theorem Splices.split_front {base : ℕ} {front back : List (Replacement α)}
    {r : Replacement α} {xs ys : List α}
    (h : Splices w base (front ++ r :: back) xs ys) :
    ∃ a m b a' b', xs = a ++ m ++ b ∧ ys = a' ++ r.content ++ b' ∧
      base + span w a = r.start ∧ r.start + span w m = r.stop ∧
      Splices w base front a a' ∧ Splices w r.stop back b b' := by
  induction front generalizing base xs ys with
  | nil =>
      cases h with
      | @cons _ _ _ a m b b' hstart hstop tail =>
          exact ⟨a, m, b, a, b', rfl, rfl, hstart, hstop, .nil _ _, tail⟩
  | cons f front ih =>
      cases h with
      | @cons _ _ _ a m b b' hstart hstop tail =>
          obtain ⟨c, n, d, c', d', rfl, rfl, hc, hn, hfront, hback⟩ := ih tail
          refine ⟨a ++ m ++ c, n, d, a ++ f.content ++ c', d', by simp,
            by simp, ?_, hn, .cons hstart hstop hfront, hback⟩
          simp only [span_append]
          omega

/-- The list around one of the spliced ranges. -/
theorem Splices.split {base : ℕ} {front back : List (Replacement α)}
    {r : Replacement α} {xs ys : List α}
    (h : Splices w base (front ++ r :: back) xs ys) :
    ∃ a m b a' b', xs = a ++ m ++ b ∧ ys = a' ++ r.content ++ b' ∧
      base + span w a = r.start ∧ r.start + span w m = r.stop ∧
      (span w a' : ℤ) = span w a + (front.map (Replacement.shift w)).sum ∧
      Splices w r.stop back b b' := by
  obtain ⟨a, m, b, a', b', hxs, hys, hstart, hstop, hfront, hback⟩ :=
    h.split_front
  exact ⟨a, m, b, a', b', hxs, hys, hstart, hstop, hfront.span_eq, hback⟩

/-- A replacement that keeps the length. -/
def Replacement.Keeps (w : α → ℕ) (r : Replacement α) : Prop :=
  r.start + span w r.content = r.stop

theorem Splices.span_eq_of_keeps {base : ℕ} {rs : List (Replacement α)}
    {xs ys : List α} (h : Splices w base rs xs ys)
    (hkeeps : ∀ r ∈ rs, r.Keeps w) : span w ys = span w xs := by
  induction h with
  | nil => rfl
  | cons hstart hstop tail ih =>
      rw [List.forall_mem_cons] at hkeeps
      have hr := hkeeps.1
      have hrest := ih hkeeps.2
      simp only [Replacement.Keeps, span_append] at *
      omega

/-- Around a range, replacements that keep the length leave the offsets. -/
theorem Splices.split_of_keeps {base : ℕ} {front back : List (Replacement α)}
    {r : Replacement α} {xs ys : List α}
    (h : Splices w base (front ++ r :: back) xs ys)
    (hkeeps : ∀ s ∈ front, s.Keeps w) :
    ∃ a m b a' b', xs = a ++ m ++ b ∧ ys = a' ++ r.content ++ b' ∧
      base + span w a = r.start ∧ r.start + span w m = r.stop ∧
      span w a' = span w a ∧ Splices w r.stop back b b' := by
  obtain ⟨a, m, b, a', b', hxs, hys, hstart, hstop, hspan, hback⟩ := h.split
  have hzero : (front.map (Replacement.shift w)).sum = 0 := by
    apply List.sum_eq_zero
    intro x hx
    obtain ⟨s, hs, rfl⟩ := List.mem_map.mp hx
    have := hkeeps s hs
    simp only [Replacement.Keeps, Replacement.shift] at *
    omega
  exact ⟨a, m, b, a', b', hxs, hys, hstart, hstop, by omega, hback⟩

/-- Boundaries behind all the ranges stay boundaries. -/
theorem Splices.boundary_of_le (hw : ∀ x, 0 < w x) {base : ℕ}
    {rs : List (Replacement α)} {xs ys : List α}
    (h : Splices w base rs xs ys) (hkeeps : ∀ r ∈ rs, r.Keeps w) {i : ℕ}
    (hi : IsBoundary w xs i) (hle : ∀ r ∈ rs, r.stop ≤ base + i) :
    IsBoundary w ys i := by
  induction h generalizing i with
  | nil => exact hi
  | @cons base r rs a m b b' hstart hstop tail ih =>
      rw [List.forall_mem_cons] at hkeeps hle
      have hr := hkeeps.1
      simp only [Replacement.Keeps] at hr
      obtain ⟨j, rfl⟩ := Nat.exists_eq_add_of_le
        (show span w (a ++ m) ≤ i by rw [span_append]; omega)
      have hj := (isBoundary_append_right_iff hw (a ++ m) b j).mp hi
      have hb' := ih hkeeps.2 hj (fun s hs => by
        have := hle.2 s hs
        rw [span_append] at this
        omega)
      have hspan : span w (a ++ m) + j = span w (a ++ r.content) + j := by
        rw [span_append, span_append]
        omega
      rw [hspan]
      exact hb'.append_left (a ++ r.content)

section Positive

variable (hw : ∀ x, 0 < w x)

include hw in
/-- The text in front of all the ranges is kept. -/
theorem Splices.skip {base : ℕ} {rs : List (Replacement α)} {a xs ys : List α}
    (h : Splices w base rs (a ++ xs) ys)
    (hle : ∀ r ∈ rs, base + span w a ≤ r.start) :
    ∃ ys', ys = a ++ ys' ∧ Splices w (base + span w a) rs xs ys' := by
  generalize hall : a ++ xs = all at h
  cases h with
  | nil => exact ⟨xs, hall.symm, .nil _ _⟩
  | @cons _ r rs c m b b' hstart hstop tail =>
      have hr := hle r (by simp)
      rw [List.append_assoc] at hall
      obtain ⟨c', rfl, rfl⟩ := exists_append_of_span_le hw hall
        (by omega)
      refine ⟨c' ++ r.content ++ b', by simp, ?_⟩
      rw [← List.append_assoc]
      refine .cons ?_ hstop tail
      rw [span_append] at hstart
      omega

include hw in
/-- Ordered and disjoint ranges that fit a list can be spliced. -/
theorem exists_splices (p xs : List α) {rs : List (Replacement α)}
    (hfits : ∀ r ∈ rs, r.Fits w (p ++ xs))
    (hbase : ∀ r ∈ rs, span w p ≤ r.start)
    (hchain : rs.Pairwise Replacement.Precedes) :
    ∃ ys, Splices w (span w p) rs xs ys := by
  induction rs generalizing p xs with
  | nil => exact ⟨xs, .nil _ _⟩
  | cons r rs ih =>
      rw [List.pairwise_cons] at hchain
      obtain ⟨hle, hs, he⟩ := hfits r (by simp)
      have hbase' := hbase r (by simp)
      obtain ⟨c, m, b, hcut, hc, hm⟩ := exists_three_parts hw hs he hle
      have hcut' : p ++ xs = c ++ (m ++ b) := by simpa using hcut
      obtain ⟨a, rfl, ha⟩ := exists_append_of_span_le hw hcut' (by omega)
      subst ha
      obtain ⟨b', hb'⟩ := ih (p ++ a ++ m) b
        (fun s hs => by simpa using hfits s (by simp [hs]))
        (fun s hs => by
          have := hchain.1 s hs
          simp only [Replacement.Precedes] at this
          rw [span_append]
          omega)
        hchain.2
      refine ⟨a ++ r.content ++ b', ?_⟩
      rw [← List.append_assoc]
      rw [span_append] at hc hm
      refine Splices.cons hc (by omega) ?_
      have hstop : span w (p ++ a ++ m) = r.stop := by
        rw [span_append, span_append]
        omega
      rwa [hstop] at hb'

include hw in
/-- Applying the replacements from the right, each to the list that the later
ones left, splices all of them. -/
theorem foldr_apply_of_splices (p : List α) {rs : List (Replacement α)}
    {base : ℕ} {xs ys : List α} (hp : span w p = base)
    (h : Splices w base rs xs ys) :
    rs.foldr (fun r l => r.apply w l) (p ++ xs) = p ++ ys := by
  induction h generalizing p with
  | nil => rfl
  | @cons base r rs a m b b' hstart hstop tail ih =>
      have htail := ih (p ++ a ++ m) (by simp only [span_append]; omega)
      rw [List.foldr_cons, ← List.append_assoc p, ← List.append_assoc p, htail]
      have hs : r.start = span w (p ++ a) := by
        rw [span_append]
        omega
      have he : r.stop = span w (p ++ a) + span w m := by
        omega
      rw [Replacement.apply, hs, he, replaceOf_parts hw]
      simp

end Positive

/-! ## The simultaneous reading -/

/-- Contents of the insertions at an offset. -/
def insertedAt (rs : List (Replacement α)) (o : ℕ) : List α :=
  (rs.filter fun r => r.start = o ∧ r.stop = o).flatMap Replacement.content

/-- Contents of the nonempty ranges that start at an offset. -/
def replacedAt (rs : List (Replacement α)) (o : ℕ) : List α :=
  (rs.filter fun r => r.start = o ∧ o < r.stop).flatMap Replacement.content

/-- Some nonempty range covers the element at an offset. -/
def coveredAt (rs : List (Replacement α)) (o : ℕ) : Bool :=
  rs.any fun r => r.start ≤ o && o < r.stop

/-- Replace every range at once: at each offset of the original list come its
insertions, then the content of the range that starts there, then the element
itself unless a range covers it. -/
def simultaneous (w : α → ℕ) (rs : List (Replacement α)) :
    ℕ → List α → List α
  | o, [] => insertedAt rs o
  | o, x :: xs =>
      insertedAt rs o ++ replacedAt rs o ++
        (if coveredAt rs o then [] else [x]) ++
        simultaneous w rs (o + w x) xs

theorem simultaneous_congr {rs ss : List (Replacement α)} {o : ℕ}
    {xs : List α}
    (hins : ∀ p, o ≤ p → insertedAt rs p = insertedAt ss p)
    (hrep : ∀ p, o ≤ p → replacedAt rs p = replacedAt ss p)
    (hcov : ∀ p, o ≤ p → coveredAt rs p = coveredAt ss p) :
    simultaneous w rs o xs = simultaneous w ss o xs := by
  induction xs generalizing o with
  | nil => exact hins o le_rfl
  | cons x xs ih =>
      have htail := ih (o := o + w x)
        (fun p hp => hins p (by omega)) (fun p hp => hrep p (by omega))
        (fun p hp => hcov p (by omega))
      simp only [simultaneous, hins o le_rfl, hrep o le_rfl, hcov o le_rfl,
        htail]

theorem insertedAt_eq_nil {rs : List (Replacement α)} {o : ℕ}
    (h : ∀ r ∈ rs, o < r.start) : insertedAt rs o = [] := by
  rw [insertedAt, List.filter_eq_nil_iff.mpr]
  · rfl
  · intro r hr
    have := h r hr
    simp only [decide_eq_true_eq, not_and]
    omega

theorem replacedAt_eq_nil {rs : List (Replacement α)} {o : ℕ}
    (h : ∀ r ∈ rs, o < r.start) : replacedAt rs o = [] := by
  rw [replacedAt, List.filter_eq_nil_iff.mpr]
  · rfl
  · intro r hr
    have := h r hr
    simp only [decide_eq_true_eq, not_and]
    omega

theorem coveredAt_eq_false {rs : List (Replacement α)} {o : ℕ}
    (h : ∀ r ∈ rs, o < r.start) : coveredAt rs o = false := by
  rw [coveredAt, List.any_eq_false]
  intro r hr
  have := h r hr
  simp only [Bool.and_eq_true, decide_eq_true_eq, not_and]
  omega

theorem simultaneous_nil (o : ℕ) (xs : List α) :
    simultaneous w [] o xs = xs := by
  induction xs generalizing o with
  | nil => rfl
  | cons x xs ih => simp [simultaneous, ih, insertedAt, replacedAt, coveredAt]

section Positive

variable (hw : ∀ x, 0 < w x)

include hw in
/-- Elements before the first range are kept. -/
theorem simultaneous_append_of_lt {rs : List (Replacement α)} {o : ℕ}
    (a xs : List α) (h : ∀ r ∈ rs, o + span w a ≤ r.start) :
    simultaneous w rs o (a ++ xs) =
      a ++ simultaneous w rs (o + span w a) xs := by
  induction a generalizing o with
  | nil => simp
  | cons x a ih =>
      have hlt : ∀ r ∈ rs, o < r.start := by
        intro r hr
        have := h r hr
        have := hw x
        rw [span_cons] at *
        omega
      have htail := ih (o := o + w x) (fun r hr => by
        have := h r hr
        rw [span_cons] at this
        omega)
      simp only [List.cons_append, simultaneous, insertedAt_eq_nil hlt,
        replacedAt_eq_nil hlt, coveredAt_eq_false hlt, htail, span_cons,
        List.nil_append, Bool.false_eq_true, if_false]
      rw [Nat.add_assoc]

/-- A range that ended says nothing about later offsets. -/
theorem simultaneous_cons_of_le {r : Replacement α}
    {rs : List (Replacement α)} {o : ℕ} (xs : List α)
    (hstart : r.start < o) (hstop : r.stop ≤ o) :
    simultaneous w (r :: rs) o xs = simultaneous w rs o xs := by
  apply simultaneous_congr
  · intro p hp
    rw [insertedAt, List.filter_cons_of_neg (by simp; omega)]
    rfl
  · intro p hp
    rw [replacedAt, List.filter_cons_of_neg (by simp; omega)]
    rfl
  · intro p hp
    have hnot : (decide (r.start ≤ p) && decide (p < r.stop)) = false := by
      simp only [Bool.and_eq_false_iff, decide_eq_false_iff_not]
      omega
    simp [coveredAt, List.any_cons, hnot]

include hw in
/-- Inside a range everything is dropped. -/
theorem simultaneous_covered {r : Replacement α} {rs : List (Replacement α)}
    {o : ℕ} (m xs : List α) (ho : r.start < o) (hstop : o + span w m = r.stop)
    (h : ∀ s ∈ rs, r.stop ≤ s.start) :
    simultaneous w (r :: rs) o (m ++ xs) = simultaneous w rs r.stop xs := by
  induction m generalizing o with
  | nil =>
      rw [span_nil, Nat.add_zero] at hstop
      rw [← hstop]
      exact simultaneous_cons_of_le xs ho (le_of_eq hstop.symm)
  | cons x m ih =>
      rw [span_cons] at hstop
      have hx := hw x
      have hlt : ∀ s ∈ rs, o < s.start := fun s hs => by
        have := h s hs
        omega
      have hins : insertedAt (r :: rs) o = [] := by
        rw [insertedAt, List.filter_cons_of_neg (by simp; omega)]
        exact insertedAt_eq_nil hlt
      have hrep : replacedAt (r :: rs) o = [] := by
        rw [replacedAt, List.filter_cons_of_neg (by simp; omega)]
        exact replacedAt_eq_nil hlt
      have hcov : coveredAt (r :: rs) o = true := by
        simp only [coveredAt, List.any_cons, Bool.or_eq_true, Bool.and_eq_true,
          decide_eq_true_eq]
        omega
      have htail := ih (o := o + w x) (by omega) (by omega)
      simp only [List.cons_append, simultaneous, hins, hrep, hcov, htail,
        List.nil_append, if_true]

include hw in
/-- At its own start a range contributes its content and drops its elements. -/
theorem simultaneous_at_start {r : Replacement α}
    {rs : List (Replacement α)} (m xs : List α)
    (hstop : r.start + span w m = r.stop)
    (h : ∀ s ∈ rs, r.stop ≤ s.start) :
    simultaneous w (r :: rs) r.start (m ++ xs) =
      r.content ++ simultaneous w rs r.stop xs := by
  cases m with
  | nil =>
      -- An insertion: it comes before all that `rs` puts at this offset.
      rw [span_nil, Nat.add_zero] at hstop
      have hins : insertedAt (r :: rs) r.start =
          r.content ++ insertedAt rs r.start := by
        rw [insertedAt, List.filter_cons_of_pos (by simp [hstop])]
        rfl
      have hrep : replacedAt (r :: rs) r.start = replacedAt rs r.start := by
        rw [replacedAt, List.filter_cons_of_neg (by simp [hstop])]
        rfl
      have hcov : coveredAt (r :: rs) r.start = coveredAt rs r.start := by
        simp [coveredAt, hstop]
      rw [← hstop, List.nil_append]
      cases xs with
      | nil => exact hins
      | cons x xs =>
          have hx := hw x
          have htail : simultaneous w (r :: rs) (r.start + w x) xs =
              simultaneous w rs (r.start + w x) xs :=
            simultaneous_cons_of_le xs (by omega) (by omega)
          simp only [simultaneous, hins, hrep, hcov, htail, List.append_assoc]
  | cons x m =>
      have hx := hw x
      rw [span_cons] at hstop
      have hlt : ∀ s ∈ rs, r.start < s.start := fun s hs => by
        have := h s hs
        omega
      have hins : insertedAt (r :: rs) r.start = [] := by
        rw [insertedAt, List.filter_cons_of_neg (by simp; omega)]
        exact insertedAt_eq_nil hlt
      have hrep : replacedAt (r :: rs) r.start = r.content := by
        rw [replacedAt, List.filter_cons_of_pos (by simp; omega),
          List.flatMap_cons]
        have hnil := replacedAt_eq_nil hlt
        rw [replacedAt] at hnil
        rw [hnil, List.append_nil]
      have hcov : coveredAt (r :: rs) r.start = true := by
        simp only [coveredAt, List.any_cons, Bool.or_eq_true, Bool.and_eq_true,
          decide_eq_true_eq]
        omega
      have htail : simultaneous w (r :: rs) (r.start + w x) (m ++ xs) =
          simultaneous w rs r.stop xs :=
        simultaneous_covered hw m xs (by omega) (by omega) h
      simp only [List.cons_append, simultaneous, hins, hrep, hcov, htail,
        List.nil_append, if_true, List.append_nil]

include hw in
/-- Splicing ranges out one by one replaces them all at once. -/
theorem simultaneous_of_splices {rs : List (Replacement α)} {base : ℕ}
    {xs ys : List α} (h : Splices w base rs xs ys) :
    simultaneous w rs base xs = ys := by
  induction h with
  | nil base xs => exact simultaneous_nil base xs
  | @cons base r rs a m b b' hstart hstop tail ih =>
      have hbase := tail.base_le
      have hfirst : ∀ s ∈ r :: rs, base + span w a ≤ s.start := by
        intro s hs
        rcases List.mem_cons.mp hs with rfl | hs
        · exact le_of_eq hstart
        · have := hbase s hs
          omega
      rw [List.append_assoc, simultaneous_append_of_lt hw a (m ++ b) hfirst,
        hstart, simultaneous_at_start hw m b hstop hbase, ih,
        List.append_assoc]

end Positive

/-! ## Deleting -/

/-- The elements of a list whose offsets are not covered. -/
def uncovered (w : α → ℕ) (covered : ℕ → Bool) : ℕ → List α → List α
  | _, [] => []
  | o, x :: xs =>
      (if covered o then [] else [x]) ++ uncovered w covered (o + w x) xs

/-- Ranges that are replaced by nothing are deleted. -/
theorem simultaneous_eq_uncovered {rs : List (Replacement α)}
    (h : ∀ r ∈ rs, r.content = []) (o : ℕ) (xs : List α) :
    simultaneous w rs o xs = uncovered w (coveredAt rs) o xs := by
  have hempty : ∀ p : Replacement α → Bool,
      (rs.filter p).flatMap Replacement.content = [] := by
    intro p
    rw [List.flatMap_eq_nil_iff]
    exact fun r hr => h r (List.mem_of_mem_filter hr)
  induction xs generalizing o with
  | nil => exact hempty _
  | cons x xs ih =>
      simp only [simultaneous, uncovered, insertedAt, replacedAt, hempty, ih,
        List.nil_append]

theorem uncovered_append (covered : ℕ → Bool) (o : ℕ) (xs ys : List α) :
    uncovered w covered o (xs ++ ys) =
      uncovered w covered o xs ++ uncovered w covered (o + span w xs) ys := by
  induction xs generalizing o with
  | nil => simp [uncovered]
  | cons x xs ih =>
      simp only [List.cons_append, uncovered, ih, span_cons, List.append_assoc,
        Nat.add_assoc]

section Positive

variable (hw : ∀ x, 0 < w x)

include hw in
/-- Only the offsets of the list itself matter. -/
theorem uncovered_congr {c d : ℕ → Bool} {o : ℕ} {xs : List α}
    (h : ∀ p, o ≤ p → p < o + span w xs → c p = d p) :
    uncovered w c o xs = uncovered w d o xs := by
  induction xs generalizing o with
  | nil => rfl
  | cons x xs ih =>
      have hx := hw x
      rw [span_cons] at h
      have hhead := h o le_rfl (by omega)
      have htail := ih (o := o + w x)
        (fun p hp hlt => h p (by omega) (by omega))
      simp only [uncovered, hhead, htail]

include hw in
theorem uncovered_eq_nil {covered : ℕ → Bool} {o : ℕ} {xs : List α}
    (h : ∀ p, o ≤ p → p < o + span w xs → covered p = true) :
    uncovered w covered o xs = [] := by
  induction xs generalizing o with
  | nil => rfl
  | cons x xs ih =>
      have hx := hw x
      rw [span_cons] at h
      have hhead := h o le_rfl (by omega)
      have htail := ih (o := o + w x)
        (fun p hp hlt => h p (by omega) (by omega))
      simp only [uncovered, hhead, htail, if_true, List.append_nil]

end Positive

end Tempr.Support
