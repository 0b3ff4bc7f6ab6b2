import Mathlib.Data.List.Sort
import Tempr.Editor.Rope

/-!
# Selections

A selection is a cursor with an anchor, in byte offsets.  `normalize` sorts a
list of selections by start and merges those that overlap, so that a
multi-cursor edit can replace all of them in one batch.
-/

namespace Tempr.Editor

/-- A half-open range of byte offsets. -/
structure ByteRange where
  start : ℕ
  stop : ℕ
  deriving DecidableEq, Repr

namespace ByteRange

def isEmpty (r : ByteRange) : Bool := r.stop ≤ r.start

def len (r : ByteRange) : ℕ := r.stop - r.start

def contains (r : ByteRange) (offset : ℕ) : Bool :=
  r.start ≤ offset && offset < r.stop

end ByteRange

/-- `head` is where the cursor is; `anchor` is where the selection started. -/
structure Selection where
  anchor : ℕ
  head : ℕ
  deriving DecidableEq, Repr

namespace Selection

def cursor (offset : ℕ) : Selection := ⟨offset, offset⟩

def isEmpty (s : Selection) : Bool := s.anchor = s.head

def start (s : Selection) : ℕ := min s.anchor s.head

def stop (s : Selection) : ℕ := max s.anchor s.head

def range (s : Selection) : ByteRange := ⟨s.start, s.stop⟩

@[simp] theorem cursor_start (o : ℕ) : (cursor o).start = o := by
  simp [cursor, start]

@[simp] theorem cursor_stop (o : ℕ) : (cursor o).stop = o := by
  simp [cursor, stop]

theorem start_le_stop (s : Selection) : s.start ≤ s.stop := by
  simp only [start, stop]
  omega

theorem anchor_between (s : Selection) :
    s.start ≤ s.anchor ∧ s.anchor ≤ s.stop := by
  simp only [start, stop]
  omega

theorem head_between (s : Selection) : s.start ≤ s.head ∧ s.head ≤ s.stop := by
  simp only [start, stop]
  omega

theorem isEmpty_iff (s : Selection) : s.isEmpty = true ↔ s.start = s.stop := by
  simp only [isEmpty, start, stop, decide_eq_true_eq]
  omega

end Selection

/-- Order in which `normalize` visits selections: by start, then by end. -/
def selectionBefore (a b : Selection) : Prop :=
  a.start < b.start ∨ a.start = b.start ∧ a.stop ≤ b.stop

instance : DecidableRel selectionBefore := fun _ _ =>
  inferInstanceAs (Decidable (_ ∨ _ ∧ _))

instance : Std.Total selectionBefore where
  total := by
    intro a b
    simp only [selectionBefore]
    omega

instance : IsTrans Selection selectionBefore where
  trans := by
    intro a b c hab hbc
    simp only [selectionBefore] at *
    omega

/-- Does `s` merge into the selection last kept? -/
def mergesInto (last s : Selection) : Bool :=
  s.start < last.stop || (s.isEmpty && s.start = last.stop && last.isEmpty)

/-- The kept selection extended over `s`, in its own orientation. -/
def mergeSelection (last s : Selection) : Selection :=
  let start := last.start
  let stop := max last.stop s.stop
  if last.head < last.anchor then ⟨stop, start⟩ else ⟨start, stop⟩

/-- Merge a sorted list into the selection last kept. -/
def mergeSorted : Selection → List Selection → List Selection
  | last, [] => [last]
  | last, s :: rest =>
      if mergesInto last s then mergeSorted (mergeSelection last s) rest
      else last :: mergeSorted s rest

/-- Sort by start and merge overlapping selections. -/
def normalize (selections : List Selection) : List Selection :=
  match selections.insertionSort selectionBefore with
  | [] => []
  | s :: rest => mergeSorted s rest

/-! ## Normalised selections -/

/-- Both ends of a selection are character boundaries within the text. -/
structure Selection.Valid (rope : Rope) (s : Selection) : Prop where
  inBounds : s.stop ≤ rope.lenBytes
  anchor_boundary : rope.IsCharBoundary s.anchor
  head_boundary : rope.IsCharBoundary s.head

/-- Selections that `normalize` keeps apart: `a` ends no later than `b` starts,
and they are not one cursor twice. -/
def Selection.Apart (a b : Selection) : Prop := mergesInto a b = false

namespace Selection

theorem apart_iff (a b : Selection) :
    a.Apart b ↔ a.stop ≤ b.start ∧
      ¬(b.start = b.stop ∧ b.start = a.stop ∧ a.start = a.stop) := by
  have ha := isEmpty_iff a
  have hb := isEmpty_iff b
  simp only [Apart, mergesInto, Bool.or_eq_false_iff, Bool.and_eq_false_iff,
    decide_eq_false_iff_not]
  rw [← Bool.not_eq_true, ← Bool.not_eq_true, ha, hb]
  omega

theorem Apart.le {a b : Selection} (h : a.Apart b) : a.stop ≤ b.start :=
  ((apart_iff a b).mp h).1

theorem Apart.trans {a b c : Selection} (hab : a.Apart b)
    (hbc : b.Apart c) : a.Apart c := by
  have := b.start_le_stop
  rw [apart_iff] at *
  omega

theorem Apart.selectionBefore {a b : Selection} (h : a.Apart b) :
    selectionBefore a b := by
  have ha := a.start_le_stop
  have hb := b.start_le_stop
  rw [apart_iff] at h
  simp only [Editor.selectionBefore]
  omega

theorem Valid.of_ends {rope : Rope} {s : Selection}
    (hanchor : rope.IsCharBoundary s.anchor)
    (hhead : rope.IsCharBoundary s.head) : s.Valid rope := by
  refine ⟨?_, hanchor, hhead⟩
  have := hanchor.le_span
  have := hhead.le_span
  simp only [stop, Rope.lenBytes]
  omega

theorem Valid.start_boundary {rope : Rope} {s : Selection}
    (h : s.Valid rope) : rope.IsCharBoundary s.start := by
  rcases le_total s.anchor s.head with hle | hle
  · rw [start, min_eq_left hle]
    exact h.anchor_boundary
  · rw [start, min_eq_right hle]
    exact h.head_boundary

theorem Valid.stop_boundary {rope : Rope} {s : Selection}
    (h : s.Valid rope) : rope.IsCharBoundary s.stop := by
  rcases le_total s.anchor s.head with hle | hle
  · rw [stop, max_eq_right hle]
    exact h.head_boundary
  · rw [stop, max_eq_left hle]
    exact h.anchor_boundary

end Selection

section Merge

variable {rope : Rope} {last s : Selection}

theorem mergeSelection_start (h : last.start ≤ s.start) :
    (mergeSelection last s).start = last.start := by
  have hlast := last.start_le_stop
  have hs := s.start_le_stop
  simp only [mergeSelection]
  split
  · simp only [Selection.start] at *
    omega
  · simp only [Selection.start] at *
    omega

theorem mergeSelection_stop :
    (mergeSelection last s).stop = max last.stop s.stop := by
  have hlast := last.start_le_stop
  simp only [mergeSelection]
  split
  · simp only [Selection.stop, Selection.start] at *
    omega
  · simp only [Selection.stop, Selection.start] at *
    omega

theorem mergeSelection_valid (hlast : last.Valid rope) (hs : s.Valid rope) :
    (mergeSelection last s).Valid rope := by
  have hstop : rope.IsCharBoundary (max last.stop s.stop) := by
    rcases le_total last.stop s.stop with hle | hle
    · rw [max_eq_right hle]
      exact hs.stop_boundary
    · rw [max_eq_left hle]
      exact hlast.stop_boundary
  simp only [mergeSelection]
  split
  · exact .of_ends hstop hlast.start_boundary
  · exact .of_ends hlast.start_boundary hstop

end Merge

theorem mergeSorted_valid {rope : Rope} {last : Selection}
    {rest : List Selection} (hlast : last.Valid rope)
    (hrest : ∀ s ∈ rest, s.Valid rope) :
    ∀ s ∈ mergeSorted last rest, s.Valid rope := by
  induction rest generalizing last with
  | nil => simpa [mergeSorted] using hlast
  | cons s rest ih =>
      rw [List.forall_mem_cons] at hrest
      simp only [mergeSorted]
      split
      · exact ih (mergeSelection_valid hlast hrest.1) hrest.2
      · rw [List.forall_mem_cons]
        exact ⟨hlast, ih hrest.1 hrest.2⟩

/-- The first merged selection extends the one it started from, and all the
merged selections are kept apart. -/
theorem mergeSorted_apart {last : Selection} {rest : List Selection}
    (hsorted : (last :: rest).Pairwise fun a b => a.start ≤ b.start) :
    ∃ head tail, mergeSorted last rest = head :: tail ∧
      head.start = last.start ∧ last.stop ≤ head.stop ∧
      (head :: tail).Pairwise Selection.Apart := by
  induction rest generalizing last with
  | nil => exact ⟨last, [], rfl, rfl, le_rfl, List.pairwise_singleton _ _⟩
  | cons s rest ih =>
      rw [List.pairwise_cons, List.pairwise_cons] at hsorted
      obtain ⟨hlast, hs, hrest⟩ := hsorted
      have hle := hlast s (by simp)
      simp only [mergeSorted]
      by_cases hmerge : mergesInto last s = true
      · rw [if_pos hmerge]
        have hstart := mergeSelection_start hle
        have hmerged : (mergeSelection last s :: rest).Pairwise
            fun a b => a.start ≤ b.start := by
          rw [List.pairwise_cons, hstart]
          exact ⟨fun t ht => hlast t (List.mem_cons_of_mem _ ht), hrest⟩
        obtain ⟨head, tail, heq, hhead, hstop, hpair⟩ := ih hmerged
        rw [mergeSelection_stop] at hstop
        exact ⟨head, tail, heq, hhead.trans hstart, by omega, hpair⟩
      · rw [if_neg hmerge]
        obtain ⟨head, tail, heq, hhead, hstop, hpair⟩ :=
          ih (List.pairwise_cons.mpr ⟨hs, hrest⟩)
        have hapart : last.Apart head := by
          have hlast : last.Apart s := by simpa [Selection.Apart] using hmerge
          have := s.start_le_stop
          rw [Selection.apart_iff] at hlast ⊢
          omega
        refine ⟨last, head :: tail, by rw [heq], rfl, le_rfl, ?_⟩
        rw [List.pairwise_cons]
        refine ⟨fun t ht => ?_, hpair⟩
        rcases List.mem_cons.mp ht with rfl | ht
        · exact hapart
        · exact hapart.trans ((List.pairwise_cons.mp hpair).1 t ht)

theorem normalize_valid {rope : Rope} {selections : List Selection}
    (h : ∀ s ∈ selections, s.Valid rope) :
    ∀ s ∈ normalize selections, s.Valid rope := by
  have hsorted : ∀ s ∈ selections.insertionSort selectionBefore,
      s.Valid rope := by
    intro s hs
    exact h s ((List.perm_insertionSort _ _).mem_iff.mp hs)
  rw [normalize]
  cases hlist : selections.insertionSort selectionBefore with
  | nil => simp
  | cons s rest =>
      rw [hlist, List.forall_mem_cons] at hsorted
      exact mergeSorted_valid hsorted.1 hsorted.2

theorem selectionsSorted (selections : List Selection) :
    (selections.insertionSort selectionBefore).Pairwise
      fun a b => a.start ≤ b.start := by
  refine (List.pairwise_insertionSort selectionBefore selections).imp ?_
  intro a b hab
  simp only [selectionBefore] at hab
  omega

theorem normalize_apart (selections : List Selection) :
    (normalize selections).Pairwise Selection.Apart := by
  have hsorted := selectionsSorted selections
  rw [normalize]
  cases hlist : selections.insertionSort selectionBefore with
  | nil => exact List.Pairwise.nil
  | cons s rest =>
      rw [hlist] at hsorted
      obtain ⟨head, tail, heq, -, -, hpair⟩ := mergeSorted_apart hsorted
      simpa only [heq] using hpair

theorem mergeSorted_of_apart {last : Selection} {rest : List Selection}
    (h : (last :: rest).Pairwise Selection.Apart) :
    mergeSorted last rest = last :: rest := by
  induction rest generalizing last with
  | nil => rfl
  | cons s rest ih =>
      rw [List.pairwise_cons] at h
      have hno : mergesInto last s = false := h.1 s (by simp)
      simp only [mergeSorted, hno, Bool.false_eq_true, if_false, ih h.2]

/-- Selections that are apart are already normal. -/
theorem normalize_of_apart {selections : List Selection}
    (h : selections.Pairwise Selection.Apart) :
    normalize selections = selections := by
  have hsort : selections.insertionSort selectionBefore = selections :=
    (h.imp Selection.Apart.selectionBefore).insertionSort_eq
  rw [normalize, hsort]
  cases selections with
  | nil => rfl
  | cons s rest => exact mergeSorted_of_apart h

theorem normalize_normalize (selections : List Selection) :
    normalize (normalize selections) = normalize selections :=
  normalize_of_apart (normalize_apart selections)

/-! ## What normalising keeps -/

/-- A selection put together from those of a list. -/
structure Selection.MadeOf (sels : List Selection) (t : Selection) : Prop where
  start_mem : ∃ s ∈ sels, s.start = t.start ∧ s.stop ≤ t.stop
  covered : ∀ o, t.range.contains o = true →
    ∃ s ∈ sels, s.range.contains o = true

theorem ByteRange.contains_iff (r : ByteRange) (o : ℕ) :
    r.contains o = true ↔ r.start ≤ o ∧ o < r.stop := by
  simp [ByteRange.contains]

theorem Selection.madeOf_of_mem {sels : List Selection} {s : Selection}
    (h : s ∈ sels) : s.MadeOf sels :=
  ⟨⟨s, h, rfl, le_rfl⟩, fun _ ho => ⟨s, h, ho⟩⟩

theorem mergeSelection_madeOf {sels : List Selection} {last s : Selection}
    (hlast : last.MadeOf sels) (hs : s.MadeOf sels)
    (hle : last.start ≤ s.start) (hmerge : mergesInto last s = true) :
    (mergeSelection last s).MadeOf sels := by
  have hstart := mergeSelection_start hle
  have hstop : (mergeSelection last s).stop = max last.stop s.stop :=
    mergeSelection_stop
  have htouch : s.start ≤ last.stop := by
    simp only [mergesInto, Bool.or_eq_true, Bool.and_eq_true,
      decide_eq_true_eq] at hmerge
    omega
  constructor
  · obtain ⟨u, hu, hus, hue⟩ := hlast.start_mem
    exact ⟨u, hu, by omega, by omega⟩
  intro o ho
  simp only [ByteRange.contains_iff, Selection.range, hstart, hstop] at ho
  -- The two ranges touch, so an offset past the first lies in the second.
  by_cases hin : o < last.stop
  · apply hlast.covered
    simp only [ByteRange.contains_iff, Selection.range]
    omega
  · apply hs.covered
    simp only [ByteRange.contains_iff, Selection.range]
    omega

theorem mergeSorted_madeOf {sels : List Selection} {last : Selection}
    {rest : List Selection} (hlast : last.MadeOf sels)
    (hrest : ∀ s ∈ rest, s.MadeOf sels)
    (hsorted : (last :: rest).Pairwise fun a b => a.start ≤ b.start) :
    ∀ t ∈ mergeSorted last rest, t.MadeOf sels := by
  induction rest generalizing last with
  | nil => simpa [mergeSorted] using hlast
  | cons s rest ih =>
      rw [List.forall_mem_cons] at hrest
      rw [List.pairwise_cons, List.forall_mem_cons] at hsorted
      obtain ⟨⟨hle, hlastrest⟩, hsrest⟩ := hsorted
      simp only [mergeSorted]
      by_cases hmerge : mergesInto last s = true
      · rw [if_pos hmerge]
        refine ih (mergeSelection_madeOf hlast hrest.1 hle hmerge) hrest.2 ?_
        rw [List.pairwise_cons, mergeSelection_start hle]
        exact ⟨hlastrest, (List.pairwise_cons.mp hsrest).2⟩
      · rw [if_neg hmerge, List.forall_mem_cons]
        exact ⟨hlast, ih hrest.1 hrest.2 hsrest⟩

theorem mergeSorted_contains {last : Selection} {rest : List Selection}
    (hsorted : (last :: rest).Pairwise fun a b => a.start ≤ b.start) :
    ∀ s ∈ last :: rest, ∃ t ∈ mergeSorted last rest,
      t.start ≤ s.start ∧ s.stop ≤ t.stop ∧
        (s.start < t.stop ∨ t.start = t.stop) := by
  induction rest generalizing last with
  | nil =>
      have hle := last.start_le_stop
      simp only [mergeSorted, List.mem_singleton, forall_eq, exists_eq_left]
      exact ⟨le_rfl, le_rfl, by omega⟩
  | cons s rest ih =>
      rw [List.pairwise_cons, List.forall_mem_cons] at hsorted
      obtain ⟨⟨hle, hlastrest⟩, hsrest⟩ := hsorted
      simp only [mergeSorted]
      by_cases hmerge : mergesInto last s = true
      · rw [if_pos hmerge]
        have hstart := mergeSelection_start hle
        have hstop : (mergeSelection last s).stop = max last.stop s.stop :=
          mergeSelection_stop
        have hmerged : (mergeSelection last s :: rest).Pairwise
            fun a b => a.start ≤ b.start := by
          rw [List.pairwise_cons, hstart]
          exact ⟨hlastrest, (List.pairwise_cons.mp hsrest).2⟩
        have hrest := ih hmerged
        rw [List.forall_mem_cons] at hrest ⊢
        obtain ⟨⟨t, ht, hts, hte, hin⟩, hrest⟩ := hrest
        rw [hstart] at hts hin
        rw [hstop] at hte
        -- Only two cursors at one place merge without sharing an offset.
        have hlastle := last.start_le_stop
        have hsle := s.start_le_stop
        have hmeet : s.start < last.stop ∨
            s.start = last.start ∧ last.start = last.stop := by
          have hempty := last.isEmpty_iff
          simp only [mergesInto, Bool.or_eq_true, Bool.and_eq_true,
            decide_eq_true_eq, hempty] at hmerge
          omega
        rw [List.forall_mem_cons]
        exact ⟨⟨t, ht, hts, by omega, hin⟩,
          ⟨t, ht, by omega, by omega, by omega⟩, hrest⟩
      · rw [if_neg hmerge, List.forall_mem_cons]
        have hlastle := last.start_le_stop
        refine ⟨⟨last, by simp, le_rfl, le_rfl, by omega⟩, fun u hu => ?_⟩
        obtain ⟨t, ht, htu⟩ := ih hsrest u hu
        exact ⟨t, List.mem_cons_of_mem _ ht, htu⟩

/-- Normalising puts its selections together from the given ones. -/
theorem normalize_madeOf (selections : List Selection) :
    ∀ t ∈ normalize selections, t.MadeOf selections := by
  have hmem : ∀ s ∈ selections.insertionSort selectionBefore,
      s.MadeOf selections := fun s hs =>
    Selection.madeOf_of_mem ((List.perm_insertionSort _ _).mem_iff.mp hs)
  have hsorted := selectionsSorted selections
  rw [normalize]
  cases hlist : selections.insertionSort selectionBefore with
  | nil => simp
  | cons s rest =>
      rw [hlist] at hmem hsorted
      rw [List.forall_mem_cons] at hmem
      exact mergeSorted_madeOf hmem.1 hmem.2 hsorted

/-- Each given selection lies in one of the normalised ones, and starts in
front of its end unless both are cursors. -/
theorem normalize_contains {selections : List Selection} {s : Selection}
    (hs : s ∈ selections) :
    ∃ t ∈ normalize selections, t.start ≤ s.start ∧ s.stop ≤ t.stop ∧
      (s.start < t.stop ∨ t.start = t.stop) := by
  have hmem := (List.perm_insertionSort selectionBefore selections).mem_iff.mpr
    hs
  have hsorted := selectionsSorted selections
  rw [normalize]
  cases hlist : selections.insertionSort selectionBefore with
  | nil => simp [hlist] at hmem
  | cons u rest =>
      rw [hlist] at hmem hsorted
      exact mergeSorted_contains hsorted s hmem

/-- Normalising neither adds nor drops a selected offset. -/
theorem normalize_covers_iff (selections : List Selection) (o : ℕ) :
    (∃ t ∈ normalize selections, t.range.contains o = true) ↔
      ∃ s ∈ selections, s.range.contains o = true := by
  constructor
  · rintro ⟨t, ht, ho⟩
    exact (normalize_madeOf selections t ht).covered o ho
  · rintro ⟨s, hs, ho⟩
    obtain ⟨t, ht, hstart, hstop, -⟩ := normalize_contains hs
    refine ⟨t, ht, ?_⟩
    simp only [ByteRange.contains_iff, Selection.range] at ho ⊢
    omega

/-! ## Selected ranges -/

section Ranges

variable {last last' s s' : Selection}

theorem mergeSelection_range (last s : Selection) :
    (mergeSelection last s).range = ⟨last.start, max last.stop s.stop⟩ := by
  have hle := last.start_le_stop
  have hstart : (mergeSelection last s).start = last.start := by
    simp only [mergeSelection]
    split
    · simp only [Selection.start, Selection.stop] at *
      omega
    · simp only [Selection.start, Selection.stop] at *
      omega
  rw [Selection.range, hstart, mergeSelection_stop]

/-- Whether two selections merge is seen from their ranges. -/
theorem mergesInto_congr (hlast : last.range = last'.range)
    (hs : s.range = s'.range) : mergesInto last s = mergesInto last' s' := by
  simp only [Selection.range, ByteRange.mk.injEq] at hlast hs
  have hmerge : ∀ a b : Selection, mergesInto a b = true ↔ b.start < a.stop ∨
      b.start = b.stop ∧ b.start = a.stop ∧ a.start = a.stop := by
    intro a b
    simp only [mergesInto, Bool.or_eq_true, Bool.and_eq_true,
      decide_eq_true_eq, Selection.isEmpty_iff, and_assoc]
  rw [Bool.eq_iff_iff, hmerge, hmerge, hlast.1, hlast.2, hs.1, hs.2]

/-- The merged ranges are found from the given ranges alone. -/
theorem mergeSorted_ranges {rest rest' : List Selection}
    (hlast : last.range = last'.range)
    (hrest : rest.map Selection.range = rest'.map Selection.range) :
    (mergeSorted last rest).map Selection.range =
      (mergeSorted last' rest').map Selection.range := by
  induction rest generalizing last last' rest' with
  | nil =>
      obtain rfl := List.map_eq_nil_iff.mp hrest.symm
      simp only [mergeSorted, List.map_cons, List.map_nil, hlast]
  | cons s rest ih =>
      cases rest' with
      | nil => simp at hrest
      | cons s' rest' =>
          simp only [List.map_cons, List.cons.injEq] at hrest
          obtain ⟨hs, hrest⟩ := hrest
          simp only [mergeSorted, mergesInto_congr hlast hs]
          split
          · refine ih ?_ hrest
            simp only [Selection.range, ByteRange.mk.injEq] at hlast hs
            rw [mergeSelection_range, mergeSelection_range, hlast.1, hlast.2,
              hs.2]
          · rw [List.map_cons, List.map_cons, hlast, ih hs hrest]

end Ranges

/-- Sorting puts the ranges of a list in one order, however it was ordered. -/
theorem sortedRanges_of_perm {selections other : List Selection}
    (h : other.Perm selections) :
    (other.insertionSort selectionBefore).map Selection.range =
      (selections.insertionSort selectionBefore).map Selection.range := by
  have hperm : (other.insertionSort selectionBefore).Perm
      (selections.insertionSort selectionBefore) :=
    (List.perm_insertionSort _ _).trans
      (h.trans (List.perm_insertionSort _ _).symm)
  have hsorted : ∀ l : List Selection,
      ((l.insertionSort selectionBefore).map Selection.range).Pairwise
        fun a b => a.start < b.start ∨ a.start = b.start ∧ a.stop ≤ b.stop :=
    fun l => List.pairwise_map.mpr
      (List.pairwise_insertionSort selectionBefore l)
  refine (hperm.map Selection.range).eq_of_pairwise ?_ (hsorted other)
    (hsorted selections)
  rintro ⟨a, a'⟩ ⟨b, b'⟩ - - hab hba
  rw [ByteRange.mk.injEq]
  dsimp only at hab hba
  omega

theorem normalize_ranges_of_perm {selections other : List Selection}
    (h : other.Perm selections) :
    (normalize other).map Selection.range =
      (normalize selections).map Selection.range := by
  have hsorted := sortedRanges_of_perm h
  rw [normalize, normalize]
  cases hother : other.insertionSort selectionBefore with
  | nil =>
      rw [hother] at hsorted
      rw [List.map_eq_nil_iff.mp hsorted.symm]
  | cons s rest =>
      cases hlist : selections.insertionSort selectionBefore with
      | nil => simp [hother, hlist] at hsorted
      | cons s' rest' =>
          rw [hother, hlist, List.map_cons, List.map_cons, List.cons.injEq]
            at hsorted
          exact mergeSorted_ranges hsorted.1 hsorted.2

/-- A cursor among the normalised selections is one of the given cursors. -/
theorem normalize_cursor {selections : List Selection} {t : Selection}
    (ht : t ∈ normalize selections) (hempty : t.isEmpty = true) :
    ∃ s ∈ selections, s.range = t.range := by
  obtain ⟨s, hs, hstart, hstop⟩ := (normalize_madeOf selections t ht).start_mem
  have hle := s.start_le_stop
  rw [Selection.isEmpty_iff] at hempty
  refine ⟨s, hs, ?_⟩
  rw [Selection.range, Selection.range, hstart,
    Nat.le_antisymm hstop (by omega)]

/-- The normalised selections are sorted, disjoint and no cursor twice; they
select what the given ones do, whatever the order of these. -/
theorem normalize_disjointCover (selections : List Selection) :
    ((normalize selections).Pairwise fun a b =>
      a.start ≤ b.start ∧ a.stop ≤ b.start ∧
        ¬(a.isEmpty = true ∧ b.isEmpty = true ∧ a.start = b.start)) ∧
    (∀ s ∈ selections, ∃ t ∈ normalize selections,
      t.start ≤ s.start ∧ s.stop ≤ t.stop) ∧
    (∀ t ∈ normalize selections,
      (∀ o, t.range.contains o = true →
        ∃ s ∈ selections, s.range.contains o = true) ∧
      (t.isEmpty = true → ∃ s ∈ selections, s.range = t.range)) ∧
    normalize (normalize selections) = normalize selections ∧
    ∀ other, other.Perm selections →
      (normalize other).map Selection.range =
        (normalize selections).map Selection.range := by
  refine ⟨(normalize_apart selections).imp ?_, fun s hs => ?_, fun t ht => ?_,
    normalize_normalize selections, fun _ => normalize_ranges_of_perm⟩
  · intro a b hab
    have ha := a.start_le_stop
    rw [Selection.apart_iff] at hab
    rw [Selection.isEmpty_iff, Selection.isEmpty_iff]
    omega
  · obtain ⟨t, ht, hstart, hstop, -⟩ := normalize_contains hs
    exact ⟨t, ht, hstart, hstop⟩
  · exact ⟨(normalize_madeOf selections t ht).covered, normalize_cursor ht⟩

/-- The cursor inside of a range is absorbed, and the range keeps its head. -/
example : normalize [⟨10, 12⟩, .cursor 3, ⟨4, 2⟩, ⟨11, 15⟩, .cursor 3] =
    [⟨4, 2⟩, ⟨10, 15⟩] := by decide

end Tempr.Editor
