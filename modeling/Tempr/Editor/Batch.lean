import Tempr.Editor.Buffer
import Tempr.Support.Splice

/-!
# Edit batches

What a batch of edits does to the text.  The acceptance test of the buffer
looks at neighbours in application order only; it is shown to accept exactly
the batches whose ranges are valid and pairwise disjoint.  The text that an
accepted batch leaves is the simultaneous replacement of all its ranges.
-/

namespace Tempr.Editor

open Tempr.Support

/-! ## Valid ranges -/

theorem Rope.charIndex_of_boundary {rope : Rope} {byte : ℕ}
    (h : rope.IsCharBoundary byte) :
    rope.charIndex byte = .ok (rope.byteToChar byte) := by
  rw [Rope.charIndex,
    if_neg (not_not_intro ((charToByte_byteToChar_eq_iff rope byte).mpr h))]

/-- A range that `charRange` accepts: in order, within the text, and with both
ends on character boundaries. -/
structure ByteRange.Valid (rope : Rope) (r : ByteRange) : Prop where
  ordered : r.start ≤ r.stop
  inBounds : r.stop ≤ rope.lenBytes
  startBoundary : rope.IsCharBoundary r.start
  stopBoundary : rope.IsCharBoundary r.stop

/-- A valid range cuts the text at its start and end. -/
theorem ByteRange.Valid.parts {rope : Rope} {r : ByteRange}
    (h : r.Valid rope) :
    ∃ a m b, rope = a ++ m ++ b ∧ Rope.lenBytes a = r.start ∧
      Rope.lenBytes a + Rope.lenBytes m = r.stop :=
  Rope.exists_parts h.startBoundary h.stopBoundary h.ordered

theorem ByteRange.Valid.of_parts {rope a m b : Rope}
    (hrope : rope = a ++ m ++ b) {start stop : ℕ}
    (hstart : Rope.lenBytes a = start)
    (hstop : Rope.lenBytes a + Rope.lenBytes m = stop) :
    ByteRange.Valid rope ⟨start, stop⟩ := by
  subst hrope hstart hstop
  refine ⟨Nat.le_add_right _ _, ?_, ⟨a, m ++ b, by simp, rfl⟩,
    ⟨a ++ m, b, rfl, Rope.lenBytes_append a m⟩⟩
  simp only [Rope.lenBytes_append]
  omega

theorem Rope.charRange_of_valid {rope : Rope} {r : ByteRange}
    (h : r.Valid rope) :
    rope.charRange r =
      .ok (rope.byteToChar r.start, rope.byteToChar r.stop) := by
  have hle := h.ordered
  have hlen := h.inBounds
  simp only [Rope.charRange, Rope.charIndex_of_boundary h.startBoundary,
    Rope.charIndex_of_boundary h.stopBoundary]
  rw [if_neg (by omega), if_neg (by omega)]
  rfl

theorem Rope.charRange_isOk_iff (rope : Rope) (r : ByteRange) :
    (rope.charRange r).isOk = true ↔ r.Valid rope := by
  constructor
  · intro h
    by_cases hle : r.start ≤ r.stop
    · by_cases hlen : r.stop ≤ rope.lenBytes
      · by_cases hs : rope.IsCharBoundary r.start
        · by_cases he : rope.IsCharBoundary r.stop
          · exact ⟨hle, hlen, hs, he⟩
          · exfalso
            have hne := mt (charToByte_byteToChar_eq_iff rope r.stop).mp he
            simp only [Rope.charRange, Rope.charIndex_of_boundary hs] at h
            rw [if_neg (by omega), if_neg (by omega), Rope.charIndex,
              if_pos hne] at h
            exact absurd h (by simp [Except.isOk, Except.toBool, bind,
              Except.bind])
        · exfalso
          have hne := mt (charToByte_byteToChar_eq_iff rope r.start).mp hs
          simp only [Rope.charRange] at h
          rw [if_neg (by omega), if_neg (by omega), Rope.charIndex,
            if_pos hne] at h
          exact absurd h (by simp [Except.isOk, Except.toBool, bind,
            Except.bind])
      · exfalso
        simp only [Rope.charRange] at h
        rw [if_neg (by omega), if_pos (by omega)] at h
        exact absurd h (by simp [Except.isOk, Except.toBool, bind, throw,
          throwThe, MonadExceptOf.throw, Except.bind])
    · exfalso
      simp only [Rope.charRange] at h
      rw [if_pos (by omega)] at h
      exact absurd h (by simp [Except.isOk, Except.toBool, bind, throw,
        throwThe, MonadExceptOf.throw, Except.bind])
  · intro h
    rw [Rope.charRange_of_valid h]
    rfl

theorem checkRanges_isOk_iff (rope : Rope) (edits : List Edit) :
    (checkRanges rope edits).isOk = true ↔
      ∀ e ∈ edits, e.range.Valid rope := by
  induction edits with
  | nil => simp [checkRanges, Except.isOk, Except.toBool]
  | cons e edits ih =>
      rw [List.forall_mem_cons, ← ih, ← Rope.charRange_isOk_iff]
      cases h : rope.charRange e.range with
      | error err =>
          simp [checkRanges, h, Except.isOk, Except.toBool, bind, Except.bind]
      | ok ch =>
          simp [checkRanges, h, Except.isOk, Except.toBool, bind, Except.bind]

/-! ## Application order -/

theorem appliesBefore_iff (a b : Edit × ℕ) :
    appliesBefore a b ↔
      b.1.range.start < a.1.range.start ∨
        b.1.range.start = a.1.range.start ∧
          (b.1.range.stop < a.1.range.stop ∨
            b.1.range.stop = a.1.range.stop ∧ b.2 ≤ a.2) := by
  simp only [appliesBefore, ne_eq, Ordering.then_eq_gt, compare_gt_iff_gt,
    compare_eq_iff_eq]
  omega

instance : Std.Total appliesBefore where
  total := by
    intro a b
    rw [appliesBefore_iff, appliesBefore_iff]
    omega

instance : IsTrans (Edit × ℕ) appliesBefore where
  trans := by
    intro a b c hab hbc
    rw [appliesBefore_iff] at *
    omega

theorem applicationOrder_perm (edits : List Edit) :
    (applicationOrder edits).Perm edits.zipIdx :=
  List.perm_insertionSort _ _

theorem applicationOrder_sorted (edits : List Edit) :
    (applicationOrder edits).Pairwise appliesBefore :=
  List.pairwise_insertionSort _ _

theorem map_fst_applicationOrder_perm (edits : List Edit) :
    ((applicationOrder edits).map Prod.fst).Perm edits := by
  simpa using (applicationOrder_perm edits).map Prod.fst

theorem mem_applicationOrder {edits : List Edit} {p : Edit × ℕ}
    (h : p ∈ applicationOrder edits) : p.1 ∈ edits :=
  (map_fst_applicationOrder_perm edits).mem_iff.mp
    (List.mem_map.mpr ⟨p, h, rfl⟩)

/-! ## Overlaps -/

/-- Two ranges share a character, or one is empty and lies strictly inside the
other.  Ranges that merely touch do not overlap. -/
def ByteRange.Overlaps (a b : ByteRange) : Prop :=
  a.start < b.stop ∧ b.start < a.stop

theorem ByteRange.Overlaps.symm {a b : ByteRange} (h : a.Overlaps b) :
    b.Overlaps a :=
  ⟨h.2, h.1⟩

/-- In application order, the later edit ends before the earlier one starts. -/
def EndsBefore (hi lo : Edit × ℕ) : Prop :=
  lo.1.range.stop ≤ hi.1.range.start

/-- The neighbour check accepts exactly when every pair is in order. -/
theorem checkOverlaps_isOk_iff {order : List (Edit × ℕ)}
    (hvalid : ∀ p ∈ order, p.1.range.start ≤ p.1.range.stop) :
    (checkOverlaps order).isOk = true ↔ order.Pairwise EndsBefore := by
  induction order with
  | nil => simp [checkOverlaps, Except.isOk, Except.toBool]
  | cons hi order ih =>
      cases order with
      | nil => simp [checkOverlaps, Except.isOk, Except.toBool]
      | cons lo rest =>
          have ih := ih fun p hp => hvalid p (List.mem_cons_of_mem _ hp)
          have hlo := hvalid lo (by simp)
          rw [List.pairwise_cons, ← ih]
          by_cases hle : lo.1.range.stop ≤ hi.1.range.start
          · have hcheck : checkOverlaps (hi :: lo :: rest) =
                checkOverlaps (lo :: rest) := by
              rw [checkOverlaps, if_neg]
              simp only [ByteRange.isEmpty, decide_eq_true_eq]
              omega
            rw [hcheck]
            refine ⟨fun h => ⟨?_, h⟩, fun h => h.2⟩
            -- `lo` is in order with `hi`, and everything later ends before `lo`.
            have hrest := List.pairwise_cons.mp (ih.mp h)
            intro p hp
            rcases List.mem_cons.mp hp with rfl | hp
            · exact hle
            · have := hrest.1 p hp
              simp only [EndsBefore] at *
              omega
          · have hcheck : (checkOverlaps (hi :: lo :: rest)).isOk = false := by
              rw [checkOverlaps, if_pos (Or.inl (by omega))]
              rfl
            rw [hcheck]
            simp only [Bool.false_eq_true, false_iff, not_and]
            intro h
            exact absurd (h lo (by simp)) hle

/-- For sorted valid edits, being disjoint is being in order. -/
theorem pairwise_endsBefore_iff {order : List (Edit × ℕ)}
    (hvalid : ∀ p ∈ order, p.1.range.start ≤ p.1.range.stop)
    (hsorted : order.Pairwise appliesBefore) :
    order.Pairwise EndsBefore ↔
      order.Pairwise fun a b => ¬a.1.range.Overlaps b.1.range := by
  constructor
  · intro h
    refine h.imp ?_
    rintro hi lo hle ⟨hlt, -⟩
    simp only [EndsBefore] at hle
    omega
  · intro h
    refine (h.and hsorted).imp_of_mem ?_
    rintro hi lo hhi hlo ⟨hno, hbefore⟩
    have hhi := hvalid hi hhi
    have hlo := hvalid lo hlo
    rw [appliesBefore_iff] at hbefore
    simp only [ByteRange.Overlaps, EndsBefore, not_and] at *
    omega

/-- What the buffer demands of a batch. -/
structure Acceptable (rope : Rope) (edits : List Edit) : Prop where
  valid : ∀ e ∈ edits, e.range.Valid rope
  disjoint : edits.Pairwise fun a b => ¬a.range.Overlaps b.range

theorem pairwise_applicationOrder_iff (edits : List Edit) :
    ((applicationOrder edits).Pairwise
        fun a b => ¬a.1.range.Overlaps b.1.range) ↔
      edits.Pairwise fun a b => ¬a.range.Overlaps b.range := by
  rw [← (map_fst_applicationOrder_perm edits).pairwise_iff
    (fun h hs => h hs.symm), List.pairwise_map]

theorem checkOverlaps_applicationOrder_iff {rope : Rope} {edits : List Edit}
    (hvalid : ∀ e ∈ edits, e.range.Valid rope) :
    (checkOverlaps (applicationOrder edits)).isOk = true ↔
      edits.Pairwise fun a b => ¬a.range.Overlaps b.range := by
  have hordered : ∀ p ∈ applicationOrder edits,
      p.1.range.start ≤ p.1.range.stop :=
    fun p hp => (hvalid p.1 (mem_applicationOrder hp)).ordered
  rw [checkOverlaps_isOk_iff hordered,
    pairwise_endsBefore_iff hordered (applicationOrder_sorted edits),
    pairwise_applicationOrder_iff]

theorem Acceptable.perm {rope : Rope} {edits edits' : List Edit}
    (h : Acceptable rope edits) (hperm : edits'.Perm edits) :
    Acceptable rope edits' where
  valid e he := h.valid e (hperm.mem_iff.mp he)
  disjoint := (hperm.pairwise_iff fun hno ho => hno ho.symm).mpr h.disjoint

/-! ## The text of an accepted batch -/

/-- The edit as a replacement of a weighted list. -/
def Edit.replacement (e : Edit) : Replacement Char :=
  ⟨e.range.start, e.range.stop, e.text⟩

/-- The text with every range of a batch replaced at once; all offsets are
those of the original text. -/
def substitute (rope : Rope) (edits : List Edit) : Rope :=
  simultaneous Char.utf8Size (edits.map Edit.replacement) 0 rope

theorem Rope.replaceBytes_fst (rope : Rope) (range : ByteRange)
    (text : List Char) :
    (rope.replaceBytes range text).1 =
      sliceOf Char.utf8Size rope range.start range.stop :=
  rfl

theorem Rope.replaceBytes_snd (rope : Rope) (range : ByteRange)
    (text : List Char) :
    (rope.replaceBytes range text).2 =
      replaceOf Char.utf8Size rope range.start range.stop text := by
  have hlen : (rope.take (rope.byteToChar range.start)).length =
      rope.byteToChar range.start := by
    rw [List.length_take]
    exact Nat.min_eq_left (indexOf_le_length rope range.start)
  have hinsert : ∀ stop,
      Rope.insert (Rope.remove rope (rope.byteToChar range.start) stop)
          (rope.byteToChar range.start) text =
        rope.take (rope.byteToChar range.start) ++ text ++ rope.drop stop := by
    intro stop
    rw [Rope.insert, Rope.remove, List.take_left' hlen, List.drop_left' hlen]
  have hsplit : Rope.remove rope (rope.byteToChar range.start)
      (rope.byteToChar range.start) = rope :=
    List.take_append_drop _ _
  change (if text ≠ [] then _ else _) = _
  by_cases hse : rope.byteToChar range.start = rope.byteToChar range.stop
  · by_cases htext : text = []
    · subst htext
      rw [if_neg (by simp), if_neg (not_not_intro hse), replaceOf]
      change rope = rope.take (rope.byteToChar range.start) ++ [] ++
        rope.drop (rope.byteToChar range.stop)
      rw [← hse, List.append_nil, List.take_append_drop]
    · rw [if_pos htext, if_neg (not_not_intro hse)]
      have htake := hinsert (rope.byteToChar range.start)
      rw [hsplit] at htake
      rw [htake, replaceOf]
      exact congrArg (fun n => rope.take _ ++ text ++ rope.drop n) hse
  · by_cases htext : text = []
    · subst htext
      rw [if_neg (by simp), if_pos hse, replaceOf, List.append_nil]
      rfl
    · rw [if_pos htext, if_pos hse, hinsert]
      rfl

/-- Skipped edits would not have changed the text. -/
theorem applyEdits_fst {order : List (Edit × ℕ)}
    (hordered : ∀ p ∈ order, p.1.range.start ≤ p.1.range.stop) (rope : Rope)
    (changes : List Change) :
    (applyEdits order rope changes).1 =
      order.foldl (fun l p => p.1.replacement.apply Char.utf8Size l) rope := by
  induction order generalizing rope changes with
  | nil => rfl
  | cons p order ih =>
      obtain ⟨e, i⟩ := p
      have ih := ih fun q hq => hordered q (List.mem_cons_of_mem _ hq)
      have hle : e.range.start ≤ e.range.stop := hordered (e, i) (by simp)
      simp only [applyEdits, List.foldl_cons]
      by_cases hskip : rope.byteSlice e.range.start e.range.stop = e.text
      · have hsame : e.replacement.apply Char.utf8Size rope = rope := by
          rw [Replacement.apply, Edit.replacement, ← hskip]
          exact replaceOf_sliceOf rope hle
        rw [if_pos hskip, ih, hsame]
      · rw [if_neg hskip, ih, Rope.replaceBytes_snd]
        rfl

theorem applyEdits_changes_prefix (order : List (Edit × ℕ)) (rope : Rope)
    (changes : List Change) :
    ∃ more, (applyEdits order rope changes).2 = changes ++ more := by
  induction order generalizing rope changes with
  | nil => exact ⟨[], by simp [applyEdits]⟩
  | cons p order ih =>
      obtain ⟨e, i⟩ := p
      simp only [applyEdits]
      split
      · exact ih rope changes
      · obtain ⟨more, hmore⟩ := ih
          (rope.replaceBytes e.range e.text).2
          (changes ++ [⟨e.range.start,
            (rope.replaceBytes e.range e.text).1, e.text⟩])
        exact ⟨_ :: more, by rw [hmore, List.append_assoc]; rfl⟩

/-- A batch that records no change skipped all its edits. -/
theorem applyEdits_of_no_changes {order : List (Edit × ℕ)} {rope : Rope}
    (h : (applyEdits order rope []).2 = []) :
    (applyEdits order rope []).1 = rope := by
  induction order with
  | nil => rfl
  | cons p order ih =>
      obtain ⟨e, i⟩ := p
      simp only [applyEdits] at h ⊢
      split at h
      case isTrue hskip =>
        rw [if_pos hskip]
        exact ih h
      case isFalse hskip =>
        obtain ⟨more, hmore⟩ := applyEdits_changes_prefix order
          (rope.replaceBytes e.range e.text).2
          ([] ++ [⟨e.range.start,
            (rope.replaceBytes e.range e.text).1, e.text⟩])
        rw [hmore] at h
        simp at h

/-- The edits of a batch from the start of the text to its end. -/
def ascending (edits : List Edit) : List Edit :=
  ((applicationOrder edits).map Prod.fst).reverse

theorem ascending_perm (edits : List Edit) : (ascending edits).Perm edits :=
  (List.reverse_perm _).trans (map_fst_applicationOrder_perm edits)

/-- An index of a batch stands for one edit. -/
theorem eq_of_mem_zipIdx {edits : List Edit} {p q : Edit × ℕ}
    (hp : p ∈ edits.zipIdx) (hq : q ∈ edits.zipIdx) (hidx : p.2 = q.2) :
    p = q := by
  obtain ⟨a, i⟩ := p
  obtain ⟨b, j⟩ := q
  simp only at hidx
  subst hidx
  rw [List.mem_zipIdx_iff_getElem?] at hp hq
  simp_all

theorem zipIdx_pairwise_lt (edits : List Edit) :
    edits.zipIdx.Pairwise fun p q => p.2 < q.2 := by
  have hidx : (edits.zipIdx.map Prod.snd).Pairwise (· < ·) := by
    rw [List.zipIdx_map_snd]
    exact List.pairwise_lt_range'
  exact List.pairwise_map.mp hidx

/-- Edits given in the order of the text are already ascending. -/
theorem ascending_of_pairwise {edits : List Edit}
    (hordered : ∀ e ∈ edits, e.range.start ≤ e.range.stop)
    (hchain : edits.Pairwise fun a b => a.range.stop ≤ b.range.start) :
    ascending edits = edits := by
  have hzip : (edits.zipIdx.map Prod.fst).Pairwise
      fun a b => a.range.stop ≤ b.range.start := by
    simpa using hchain
  have hsorted : edits.zipIdx.reverse.Pairwise appliesBefore := by
    rw [List.pairwise_reverse]
    refine ((List.pairwise_map.mp hzip).and
      (zipIdx_pairwise_lt edits)).imp_of_mem ?_
    rintro p q hp hq ⟨hle, hlt⟩
    have hp := hordered p.1 (List.fst_mem_of_mem_zipIdx hp)
    have hq := hordered q.1 (List.fst_mem_of_mem_zipIdx hq)
    rw [appliesBefore_iff]
    omega
  have horder : applicationOrder edits = edits.zipIdx.reverse := by
    have hperm : (applicationOrder edits).Perm edits.zipIdx.reverse :=
      (applicationOrder_perm edits).trans (List.reverse_perm _).symm
    refine hperm.eq_of_pairwise ?_ (applicationOrder_sorted edits) hsorted
    intro p q hp hq hpq hqp
    apply eq_of_mem_zipIdx ((applicationOrder_perm edits).mem_iff.mp hp)
      (List.mem_reverse.mp hq)
    rw [appliesBefore_iff] at hpq hqp
    omega
  rw [ascending, horder, List.map_reverse, List.reverse_reverse]
  simp

/-- Insertions at one offset keep the order of the caller. -/
theorem filter_insertions_ascending (edits : List Edit) (o : ℕ) :
    ((ascending edits).filter fun e => e.range.start = o ∧ e.range.stop = o) =
      edits.filter fun e => e.range.start = o ∧ e.range.stop = o := by
  let here : Edit × ℕ → Bool := fun p =>
    p.1.range.start = o ∧ p.1.range.stop = o
  have hperm : ((applicationOrder edits).reverse.filter here).Perm
      (edits.zipIdx.filter here) :=
    ((List.reverse_perm _).trans (applicationOrder_perm edits)).filter here
  have hfilter : (applicationOrder edits).reverse.filter here =
      edits.zipIdx.filter here := by
    have hantisymm : ∀ p q, p ∈ (applicationOrder edits).reverse.filter here →
        q ∈ edits.zipIdx.filter here → p.2 ≤ q.2 → q.2 ≤ p.2 → p = q := by
      intro p q hp hq hpq hqp
      exact eq_of_mem_zipIdx (List.mem_filter.mp (hperm.mem_iff.mp hp)).1
        (List.mem_filter.mp hq).1 (le_antisymm hpq hqp)
    apply hperm.eq_of_pairwise hantisymm
    · have hsorted := List.pairwise_reverse.mpr (applicationOrder_sorted edits)
      refine (hsorted.filter here).imp_of_mem ?_
      intro p q hp hq hle
      have hp := (List.mem_filter.mp hp).2
      have hq := (List.mem_filter.mp hq).2
      simp only [here, decide_eq_true_eq] at hp hq
      rw [appliesBefore_iff] at hle
      omega
    · exact ((zipIdx_pairwise_lt edits).imp fun h => le_of_lt h).filter here
  have hmap := congrArg (List.map Prod.fst) hfilter
  have hzip : edits = edits.zipIdx.map Prod.fst := by simp
  rw [ascending, ← List.map_reverse, List.filter_map]
  conv_rhs => rw [hzip, List.filter_map]
  exact hmap

/-- Disjoint nonempty ranges do not share a start, so their order at one
offset is trivial. -/
theorem filter_replacements_eq {edits edits' : List Edit} {o : ℕ}
    (hperm : edits'.Perm edits)
    (hdisjoint : edits.Pairwise fun a b => ¬a.range.Overlaps b.range) :
    (edits'.filter fun e => e.range.start = o ∧ o < e.range.stop) =
      edits.filter fun e => e.range.start = o ∧ o < e.range.stop := by
  have hfilter := hperm.filter fun e => e.range.start = o ∧ o < e.range.stop
  have hpair := hdisjoint.filter fun e => e.range.start = o ∧ o < e.range.stop
  have hmem : ∀ e ∈ edits.filter fun e =>
      e.range.start = o ∧ o < e.range.stop,
        e.range.start = o ∧ o < e.range.stop := by
    intro e he
    simpa using (List.mem_filter.mp he).2
  generalize (edits.filter fun e => e.range.start = o ∧ o < e.range.stop) =
    here at *
  match here with
  | [] => exact hfilter.eq_nil
  | [e] => exact hfilter.eq_singleton
  | e :: e' :: rest =>
      exfalso
      have he := hmem e (by simp)
      have he' := hmem e' (by simp)
      rw [List.pairwise_cons] at hpair
      exact hpair.1 e' (by simp) ⟨by omega, by omega⟩

theorem insertedAt_map_replacement (edits : List Edit) (o : ℕ) :
    insertedAt (edits.map Edit.replacement) o =
      (edits.filter fun e =>
        e.range.start = o ∧ e.range.stop = o).flatMap Edit.text := by
  rw [insertedAt, List.filter_map, List.flatMap_map]
  rfl

theorem replacedAt_map_replacement (edits : List Edit) (o : ℕ) :
    replacedAt (edits.map Edit.replacement) o =
      (edits.filter fun e =>
        e.range.start = o ∧ o < e.range.stop).flatMap Edit.text := by
  rw [replacedAt, List.filter_map, List.flatMap_map]
  rfl

/-- The simultaneous reading depends only on the order of insertions at the
same offset. -/
theorem substitute_perm {rope : Rope} {edits edits' : List Edit}
    (hperm : edits'.Perm edits)
    (hdisjoint : edits.Pairwise fun a b => ¬a.range.Overlaps b.range)
    (hins : ∀ o,
      (edits'.filter fun e => e.range.start = o ∧ e.range.stop = o) =
        edits.filter fun e => e.range.start = o ∧ e.range.stop = o) :
    substitute rope edits' = substitute rope edits := by
  apply simultaneous_congr
  · intro o _
    rw [insertedAt_map_replacement, insertedAt_map_replacement, hins]
  · intro o _
    rw [replacedAt_map_replacement, replacedAt_map_replacement,
      filter_replacements_eq hperm hdisjoint]
  · intro o _
    exact (hperm.map Edit.replacement).any_eq

theorem ascending_pairwise {rope : Rope} {edits : List Edit}
    (h : Acceptable rope edits) :
    ((ascending edits).map Edit.replacement).Pairwise
      Replacement.Precedes := by
  have hordered : ∀ p ∈ applicationOrder edits,
      p.1.range.start ≤ p.1.range.stop :=
    fun p hp => (h.valid p.1 (mem_applicationOrder hp)).ordered
  have hends := (pairwise_endsBefore_iff hordered
    (applicationOrder_sorted edits)).mpr
      ((pairwise_applicationOrder_iff edits).mpr h.disjoint)
  rw [List.pairwise_map, ascending, List.pairwise_reverse, List.pairwise_map]
  exact hends

/-- An acceptable batch, applied from the end of the text backwards, splices
its ascending edits. -/
theorem applyEdits_splices {rope : Rope} {edits : List Edit}
    (h : Acceptable rope edits) (changes : List Change) :
    Splices Char.utf8Size 0 ((ascending edits).map Edit.replacement) rope
      (applyEdits (applicationOrder edits) rope changes).1 := by
  have hfits : ∀ r ∈ (ascending edits).map Edit.replacement,
      r.Fits Char.utf8Size rope := by
    intro r hr
    obtain ⟨e, he, rfl⟩ := List.mem_map.mp hr
    have hvalid := h.valid e ((ascending_perm edits).mem_iff.mp he)
    exact ⟨hvalid.ordered, hvalid.startBoundary, hvalid.stopBoundary⟩
  obtain ⟨ys, hys⟩ := exists_splices Rope.utf8Size_pos [] rope hfits
    (by simp) (ascending_pairwise h)
  have hfold := foldr_apply_of_splices Rope.utf8Size_pos [] rfl hys
  have hordered : ∀ p ∈ applicationOrder edits,
      p.1.range.start ≤ p.1.range.stop :=
    fun p hp => (h.valid p.1 (mem_applicationOrder hp)).ordered
  have happly : (applyEdits (applicationOrder edits) rope changes).1 = ys := by
    rw [applyEdits_fst hordered]
    rw [ascending, List.foldr_map, List.foldr_reverse, List.foldl_map]
      at hfold
    exact hfold
  rw [happly]
  exact hys

theorem applyEdits_eq_substitute {rope : Rope} {edits : List Edit}
    (h : Acceptable rope edits) (changes : List Change) :
    (applyEdits (applicationOrder edits) rope changes).1 =
      substitute rope edits := by
  rw [← simultaneous_of_splices Rope.utf8Size_pos
    (applyEdits_splices h changes)]
  exact substitute_perm (ascending_perm edits) h.disjoint
    (filter_insertions_ascending edits)

/-! ## The buffer operation -/

namespace Buffer

/-- The acceptance test of a batch and the text it leaves. -/
theorem editInner_of_acceptable {b : Buffer} {edits : List Edit}
    (h : Acceptable b.rope edits) (revision : ℕ)
    (selections : Option SelectionSnapshot) :
    b.editInner revision edits selections =
      if (applyEdits (applicationOrder edits) b.rope []).2 = [] then
        (b, .ok none)
      else
        ({ rope := (applyEdits (applicationOrder edits) b.rope []).1
           history :=
            ⟨⟨b.nextEdit, (applyEdits (applicationOrder edits) b.rope []).2,
              selections⟩ :: b.history.undo, []⟩
           syntaxDirty := true
           nextEdit := b.nextEdit + 1
           revision := revision },
          .ok (some b.nextEdit)) := by
  have hranges := (checkRanges_isOk_iff b.rope edits).mpr h.valid
  have hoverlaps := (checkOverlaps_applicationOrder_iff h.valid).mpr h.disjoint
  rw [editInner]
  cases hr : checkRanges b.rope edits with
  | error err => simp [hr, Except.isOk, Except.toBool] at hranges
  | ok u =>
      cases ho : checkOverlaps (applicationOrder edits) with
      | error err => simp [ho, Except.isOk, Except.toBool] at hoverlaps
      | ok u => simp only [ho]

theorem editInner_of_not_acceptable {b : Buffer} {edits : List Edit}
    (h : ¬Acceptable b.rope edits) (revision : ℕ)
    (selections : Option SelectionSnapshot) :
    ∃ err, b.editInner revision edits selections = (b, .error err) := by
  rw [editInner]
  cases hr : checkRanges b.rope edits with
  | error err => exact ⟨err, rfl⟩
  | ok u =>
      have hvalid := (checkRanges_isOk_iff b.rope edits).mp (by rw [hr]; rfl)
      cases ho : checkOverlaps (applicationOrder edits) with
      | error err => exact ⟨err, by simp only [ho]⟩
      | ok u =>
          exact absurd ⟨hvalid, (checkOverlaps_applicationOrder_iff hvalid).mp
            (by rw [ho]; rfl)⟩ h

theorem editInner_isOk_iff (b : Buffer) (edits : List Edit) (revision : ℕ)
    (selections : Option SelectionSnapshot) :
    (b.editInner revision edits selections).2.isOk = true ↔
      Acceptable b.rope edits := by
  by_cases h : Acceptable b.rope edits
  · rw [editInner_of_acceptable h]
    split
    · simp [h, Except.isOk, Except.toBool]
    · simp [h, Except.isOk, Except.toBool]
  · obtain ⟨err, herr⟩ := editInner_of_not_acceptable h revision selections
    simp [herr, h, Except.isOk, Except.toBool]

theorem editInner_rope {b : Buffer} {edits : List Edit}
    (h : Acceptable b.rope edits) (revision : ℕ)
    (selections : Option SelectionSnapshot) :
    (b.editInner revision edits selections).1.rope =
      substitute b.rope edits := by
  have happly := applyEdits_eq_substitute h []
  rw [editInner_of_acceptable h]
  split
  case isTrue hnone =>
    -- Every edit was skipped, so the text after the batch is the text before.
    rw [← happly]
    exact (applyEdits_of_no_changes hnone).symm
  case isFalse => exact happly

/-- `edit` is simultaneous substitution and leaves the buffer alone when it
rejects a batch. -/
theorem edit_simultaneous (b : Buffer) (revision : ℕ) (edits : List Edit) :
    ((b.edit revision edits).2.isOk = true ↔ Acceptable b.rope edits) ∧
      (Acceptable b.rope edits →
        (b.edit revision edits).1.rope = substitute b.rope edits ∧
          ∀ edits' : List Edit, edits'.Perm edits →
            (∀ o, (edits'.filter fun e => e.range.start = o) =
              edits.filter fun e => e.range.start = o) →
            (b.edit revision edits').2.isOk = true ∧
              (b.edit revision edits').1.rope =
                (b.edit revision edits).1.rope) ∧
      (¬Acceptable b.rope edits → (b.edit revision edits).1 = b) := by
  refine ⟨editInner_isOk_iff b edits revision none, ?_, ?_⟩
  · intro h
    refine ⟨editInner_rope h revision none, ?_⟩
    intro edits' hperm hsame
    have h' := h.perm hperm
    refine ⟨(editInner_isOk_iff b edits' revision none).mpr h', ?_⟩
    rw [edit, edit, editInner_rope h', editInner_rope h]
    apply substitute_perm hperm h.disjoint
    intro o
    -- The insertions at `o` are among the edits that start at `o`.
    have hstop := congrArg (List.filter fun e => e.range.stop = o) (hsame o)
    simpa [List.filter_filter, Bool.and_comm] using hstop
  · intro h
    obtain ⟨err, herr⟩ := editInner_of_not_acceptable h revision none
    rw [edit, herr]

example : (edit 1 (new 0 "abc".toList)
    [⟨⟨1, 2⟩, "X".toList⟩, ⟨⟨1, 1⟩, "1".toList⟩, ⟨⟨1, 1⟩, "2".toList⟩]).1.rope =
      "a12Xc".toList := by
  decide

end Buffer

end Tempr.Editor
