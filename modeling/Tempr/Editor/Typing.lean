import Tempr.Editor.History
import Tempr.Editor.Outcome

/-!
# Typing and deleting at several cursors

What the multi-cursor operations do to the text, and where they leave the
cursors.  The code computes every new cursor from the lengths of the edits in
front of it; here a cursor is placed by the text in front of it.
-/

namespace Tempr.Editor

open Tempr.Support

/-! ## Lists of cursors -/

theorem Selection.eq_cursor_of_isEmpty {s : Selection}
    (h : s.isEmpty = true) : s = cursor s.head := by
  obtain ⟨anchor, head⟩ := s
  simp only [isEmpty, decide_eq_true_eq] at h
  rw [cursor, h]

/-- Normalised cursors are the given ones, each once. -/
theorem normalize_cursors {cs : List Selection}
    (hcs : ∀ c ∈ cs, c.isEmpty = true) :
    (∀ c, c ∈ normalize cs ↔ c ∈ cs) ∧
      (normalize cs).Pairwise fun a b => a.head < b.head := by
  have hempty : ∀ t ∈ normalize cs, t.isEmpty = true := by
    intro t ht
    by_contra hne
    have hlt := t.start_le_stop
    rw [t.isEmpty_iff] at hne
    obtain ⟨s, hs, ho⟩ := (normalize_madeOf cs t ht).covered t.start (by
      simp only [ByteRange.contains_iff, Selection.range]
      omega)
    have hs' := (s.isEmpty_iff).mp (hcs s hs)
    simp only [ByteRange.contains_iff, Selection.range] at ho
    omega
  have heq : ∀ s t : Selection, s.isEmpty = true → t.isEmpty = true →
      s.start = t.start → s = t := by
    intro s t hs ht hst
    rw [Selection.eq_cursor_of_isEmpty hs, Selection.eq_cursor_of_isEmpty ht]
      at hst ⊢
    rw [Selection.cursor_start, Selection.cursor_start] at hst
    rw [hst]
  refine ⟨fun c => ⟨fun hc => ?_, fun hc => ?_⟩, ?_⟩
  · obtain ⟨s, hs, hst, -⟩ := (normalize_madeOf cs c hc).start_mem
    rwa [← heq s c (hcs s hs) (hempty c hc) hst]
  · obtain ⟨t, ht, hstart, hstop, -⟩ := normalize_contains hc
    have hte := (t.isEmpty_iff).mp (hempty t ht)
    have hle := c.start_le_stop
    rwa [heq c t (hcs c hc) (hempty t ht) (by omega)]
  · refine (normalize_apart cs).imp_of_mem ?_
    intro a b ha hb hab
    have ha' := (a.isEmpty_iff).mp (hempty a ha)
    have hb' := (b.isEmpty_iff).mp (hempty b hb)
    have hahead := a.head_between
    have hbhead := b.head_between
    rw [Selection.apart_iff] at hab
    omega

/-! ## Where the cursors are computed to be -/

theorem cursorsAfterReplacements_length (n : ℕ) (shift : ℤ)
    (sels : List Selection) :
    (cursorsAfterReplacements n shift sels).length = sels.length := by
  induction sels generalizing shift with
  | nil => rfl
  | cons s sels ih => simp only [cursorsAfterReplacements, List.length_cons, ih]

/-- Each cursor is shifted by the growth of the selections in front. -/
theorem cursorsAfterReplacements_getElem? (n : ℕ) (shift : ℤ)
    (front : List Selection) (s : Selection) (back : List Selection) :
    (cursorsAfterReplacements n shift
        (front ++ s :: back))[front.length]? =
      some (Selection.cursor (((s.start : ℤ) + (shift +
        (front.map fun f => (n : ℤ) - f.range.len).sum)).toNat + n)) := by
  induction front generalizing shift with
  | nil => simp [cursorsAfterReplacements]
  | cons f front ih =>
      simp only [List.cons_append, cursorsAfterReplacements, List.length_cons,
        List.getElem?_cons_succ, ih, List.map_cons, List.sum_cons]
      rw [add_assoc]

theorem cursorsAfterReplacements_empty {n : ℕ} {shift : ℤ}
    {sels : List Selection} :
    ∀ c ∈ cursorsAfterReplacements n shift sels, c.isEmpty = true := by
  induction sels generalizing shift with
  | nil => simp [cursorsAfterReplacements]
  | cons s sels ih =>
      simp only [cursorsAfterReplacements, List.forall_mem_cons]
      exact ⟨by simp [Selection.isEmpty, Selection.cursor], ih⟩

/-- The cursors ascend by at least the length of the inserted text.  `base`
is an offset in front of the selections. -/
theorem cursorsAfterReplacements_ascending {n : ℕ} {sels : List Selection}
    (hsels : sels.Pairwise fun a b => a.stop ≤ b.start) {base : ℕ} {shift : ℤ}
    (hbase : ∀ s ∈ sels, base ≤ s.start) (hfront : 0 ≤ base + shift) :
    (∀ c ∈ cursorsAfterReplacements n shift sels,
        base + shift + n ≤ c.head) ∧
      (cursorsAfterReplacements n shift sels).Pairwise
        fun a b => a.head + n ≤ b.head := by
  induction sels generalizing base shift with
  | nil => simp [cursorsAfterReplacements]
  | cons s sels ih =>
      rw [List.pairwise_cons] at hsels
      rw [List.forall_mem_cons] at hbase
      have hle := s.start_le_stop
      have hgrow : (s.stop : ℤ) + (shift + ((n : ℤ) - s.range.len)) =
          s.start + shift + n := by
        simp only [ByteRange.len, Selection.range]
        omega
      have hfront' : 0 ≤ (s.stop : ℤ) + (shift + ((n : ℤ) - s.range.len)) := by
        omega
      have hrest := ih hsels.2 hsels.1 hfront'
      rw [hgrow] at hrest
      simp only [cursorsAfterReplacements, List.forall_mem_cons,
        List.pairwise_cons, Selection.cursor]
      refine ⟨⟨by omega, fun c hc => ?_⟩, fun c hc => ?_, hrest.2⟩
      · have := hrest.1 c hc
        omega
      · have := hrest.1 c hc
        omega

/-! ## Replacing the selections -/

/-- The batch that replaces each of the selections by a text. -/
def replacements (sels : List Selection) (text : List Char) : List Edit :=
  sels.map fun s => ⟨s.range, text⟩

theorem substitute_of_splices {rope rope' : Rope} {edits : List Edit}
    (h : Splices Char.utf8Size 0 (edits.map Edit.replacement) rope rope') :
    substitute rope edits = rope' :=
  simultaneous_of_splices Rope.utf8Size_pos h

/-- The text in front of an offset. -/
def Rope.before (rope : Rope) (o : ℕ) : Rope := rope.byteSlice 0 o

theorem Rope.before_append (a b : Rope) :
    Rope.before (a ++ b) (lenBytes a) = a := by
  have h := byteSlice_parts [] a b
  simpa [before] using h

/-- One cursor for each of the selections, right behind the copy of the text
that replaced it. -/
structure BehindCopies (rope : Rope) (sels : List Selection)
    (text : List Char) (cursors : List Selection) : Prop where
  length_eq : cursors.length = sels.length
  behind : ∀ front s back, sels = front ++ s :: back →
    ∃ rest, substitute rope (replacements sels text) =
        substitute (rope.before s.start) (replacements front text) ++ text ++
          rest ∧
      cursors[front.length]? = some (Selection.cursor (Rope.lenBytes
        (substitute (rope.before s.start) (replacements front text) ++
          text)))

/-- The text around the replacement of one selection, and its new cursor. -/
theorem cursorsAfterReplacements_split {rope rope' : Rope}
    {front back : List Selection} {s : Selection} {text : List Char}
    (h : Splices Char.utf8Size 0
      ((replacements (front ++ s :: back) text).map Edit.replacement)
      rope rope') :
    ∃ rest, rope' =
        substitute (rope.before s.start) (replacements front text) ++ text ++
          rest ∧
      (cursorsAfterReplacements (Rope.lenBytes text) 0
          (front ++ s :: back))[front.length]? =
        some (Selection.cursor (Rope.lenBytes
          (substitute (rope.before s.start) (replacements front text) ++
            text))) := by
  have hmap : (replacements (front ++ s :: back) text).map Edit.replacement =
      (replacements front text).map Edit.replacement ++
        (⟨s.start, s.stop, text⟩ : Replacement Char) ::
          (replacements back text).map Edit.replacement := by
    simp [replacements, Edit.replacement, Selection.range]
  rw [hmap] at h
  obtain ⟨a, m, b, a', b', rfl, rfl, hstart, -, hfront, -⟩ := h.split_front
  have hspan := hfront.span_eq
  rw [Nat.zero_add] at hstart
  change Rope.lenBytes a = s.start at hstart
  have hbefore : Rope.before (a ++ m ++ b) s.start = a := by
    rw [← hstart, List.append_assoc]
    exact Rope.before_append a (m ++ b)
  have hgrow : ((replacements front text).map Edit.replacement).map
        (Replacement.shift Char.utf8Size) =
      front.map fun f => (Rope.lenBytes text : ℤ) - f.range.len := by
    rw [replacements, List.map_map, List.map_map]
    apply List.map_congr_left
    intro f _
    have := f.start_le_stop
    simp only [Function.comp, Edit.replacement, Replacement.shift,
      ByteRange.len, Selection.range, Rope.lenBytes]
    omega
  refine ⟨b', ?_, ?_⟩
  · rw [hbefore, substitute_of_splices hfront]
  · rw [cursorsAfterReplacements_getElem?, hbefore,
      substitute_of_splices hfront, Rope.lenBytes_append]
    rw [hgrow] at hspan
    change (Rope.lenBytes a' : ℤ) = Rope.lenBytes a + _ at hspan
    congr 2
    omega

/-- The cursors of a nonempty text stay as they are computed. -/
theorem behindCopies_normalize {rope rope' : Rope} {sels : List Selection}
    (hapart : sels.Pairwise Selection.Apart) {text : List Char}
    (htext : text ≠ [])
    (h : Splices Char.utf8Size 0
      ((replacements sels text).map Edit.replacement) rope rope') :
    BehindCopies rope sels text (normalize
      (cursorsAfterReplacements (Rope.lenBytes text) 0 sels)) := by
  have hpos := Rope.lenBytes_pos htext
  have hascending :
      (cursorsAfterReplacements (Rope.lenBytes text) 0 sels).Pairwise
        fun a b => a.head + Rope.lenBytes text ≤ b.head := by
    have hzero : (0 : ℤ) ≤ (0 : ℕ) + 0 := le_rfl
    exact (cursorsAfterReplacements_ascending (hapart.imp Selection.Apart.le)
      (fun s _ => Nat.zero_le s.start) hzero).2
  have hnormal : normalize
        (cursorsAfterReplacements (Rope.lenBytes text) 0 sels) =
      cursorsAfterReplacements (Rope.lenBytes text) 0 sels := by
    apply normalize_of_apart
    refine hascending.imp_of_mem ?_
    intro a b ha hb hab
    have ha' := a.isEmpty_iff.mp (cursorsAfterReplacements_empty a ha)
    have hb' := b.isEmpty_iff.mp (cursorsAfterReplacements_empty b hb)
    have hahead := a.head_between
    have hbhead := b.head_between
    rw [Selection.apart_iff]
    omega
  rw [hnormal]
  refine ⟨cursorsAfterReplacements_length _ _ _, ?_⟩
  rintro front s back rfl
  obtain ⟨rest, hrope, hcursor⟩ := cursorsAfterReplacements_split h
  exact ⟨rest, (substitute_of_splices h).trans hrope, hcursor⟩

/-! ## Deleting ranges -/

/-- The text with the characters of some ranges left out. -/
def Rope.without (rope : Rope) (ranges : List ByteRange) : Rope :=
  uncovered Char.utf8Size (fun o => ranges.any fun r => r.contains o) 0 rope

/-- Place in the text without some ranges of an offset of the whole text. -/
def deletionPoint (rope : Rope) (ranges : List ByteRange) (o : ℕ) : ℕ :=
  Rope.lenBytes ((rope.before o).without ranges)

/-- Exactly the ranges are deleted, and exactly the places where a range
started hold a cursor, each place one. -/
structure DeletesExactly (rope : Rope) (ranges : List ByteRange)
    (rope' : Rope) (cursors : List Selection) : Prop where
  text_eq : rope' = rope.without ranges
  mem_iff : ∀ c, c ∈ cursors ↔
    ∃ r ∈ ranges, c = Selection.cursor (deletionPoint rope ranges r.start)
  ascending : cursors.Pairwise fun a b => a.head < b.head

theorem Rope.exists_before {rope : Rope} {o : ℕ}
    (h : rope.IsCharBoundary o) :
    ∃ b, rope = rope.before o ++ b ∧ lenBytes (rope.before o) = o := by
  obtain ⟨a, b, rfl, rfl⟩ := h
  have hbefore : Rope.before (a ++ b) (span Char.utf8Size a) = a :=
    Rope.before_append a b
  rw [hbefore]
  exact ⟨b, rfl, rfl⟩

/-- Offsets with nothing but deleted text between them fall together. -/
theorem deletionPoint_congr {rope : Rope} {ranges : List ByteRange}
    {o o' : ℕ} (ho : rope.IsCharBoundary o) (ho' : rope.IsCharBoundary o')
    (hle : o ≤ o')
    (hgone : ∀ p, o ≤ p → p < o' → ∃ r ∈ ranges, r.contains p = true) :
    deletionPoint rope ranges o' = deletionPoint rope ranges o := by
  obtain ⟨a, m, b, rfl, ha, hm⟩ := Rope.exists_parts ho ho' hle
  have hbefore : Rope.before (a ++ m ++ b) o = a := by
    rw [← ha, List.append_assoc]
    exact Rope.before_append a (m ++ b)
  have hbefore' : Rope.before (a ++ m ++ b) o' = a ++ m := by
    rw [← hm, ← Rope.lenBytes_append]
    exact Rope.before_append (a ++ m) b
  have hspan : span Char.utf8Size a + span Char.utf8Size m = o' := hm
  change span Char.utf8Size a = o at ha
  have hnil : uncovered Char.utf8Size
      (fun p => ranges.any fun r => r.contains p)
      (0 + span Char.utf8Size a) m = [] := by
    apply uncovered_eq_nil Rope.utf8Size_pos
    intro p hp hlt
    rw [List.any_eq_true]
    exact hgone p (by omega) (by omega)
  rw [deletionPoint, deletionPoint, hbefore, hbefore', Rope.without,
    uncovered_append, hnil, List.append_nil, Rope.without]

theorem coveredAt_deletions (sels : List Selection) (o : ℕ) :
    coveredAt ((replacements sels []).map Edit.replacement) o =
      sels.any fun s => s.range.contains o := by
  simp only [coveredAt, replacements, List.any_map]
  rfl

/-- Replacing by nothing leaves the other characters. -/
theorem substitute_deletions (rope : Rope) (sels : List Selection) :
    substitute rope (replacements sels []) =
      uncovered Char.utf8Size
        (fun o => sels.any fun s => s.range.contains o) 0 rope := by
  have hnil : ∀ r ∈ (replacements sels []).map Edit.replacement,
      r.content = [] := by
    intro r hr
    simp only [replacements, List.map_map, List.mem_map] at hr
    obtain ⟨s, -, rfl⟩ := hr
    rfl
  have hcovered : coveredAt ((replacements sels []).map Edit.replacement) =
      fun o => sels.any fun s => s.range.contains o :=
    funext fun o => coveredAt_deletions sels o
  rw [substitute, simultaneous_eq_uncovered hnil, hcovered]

section Deletion

variable {rope rope' : Rope} {ranges : List Selection}
  (hvalid : ∀ s ∈ ranges, s.Valid rope)

theorem any_normalize (o : ℕ) :
    ((normalize ranges).any fun s => s.range.contains o) =
      (ranges.map Selection.range).any fun r => r.contains o := by
  rw [Bool.eq_iff_iff, List.any_map, List.any_eq_true, List.any_eq_true]
  exact normalize_covers_iff ranges o

include hvalid in
/-- The text in front of a normalised range with the ranges before it left
out is that text with all the ranges left out. -/
theorem substitute_before {front back : List Selection} {t : Selection}
    (hsplit : normalize ranges = front ++ t :: back) :
    substitute (rope.before t.start) (replacements front []) =
      (rope.before t.start).without (ranges.map Selection.range) := by
  have ht : t ∈ normalize ranges := by simp [hsplit]
  have hapart := normalize_apart ranges
  rw [hsplit, List.pairwise_append, List.pairwise_cons] at hapart
  obtain ⟨-, ⟨hback, -⟩, -⟩ := hapart
  obtain ⟨-, -, hlen⟩ := Rope.exists_before
    (normalize_valid hvalid t ht).start_boundary
  change span Char.utf8Size (rope.before t.start) = t.start at hlen
  rw [substitute_deletions, Rope.without]
  apply uncovered_congr Rope.utf8Size_pos
  intro p _ hp
  rw [← any_normalize, hsplit, List.any_append]
  -- Neither the range itself nor a later one reaches in front of it.
  have hlater : ((t :: back).any fun s => s.range.contains p) = false := by
    rw [List.any_eq_false]
    intro s hs
    rw [ByteRange.contains_iff]
    have hle : t.start ≤ s.start := by
      rcases List.mem_cons.mp hs with rfl | hs
      · exact le_rfl
      · exact t.start_le_stop.trans (hback s hs).le
    simp only [Selection.range]
    omega
  rw [hlater, Bool.or_false]

include hvalid in
theorem mem_cursors_iff (h : Splices Char.utf8Size 0
    ((replacements (normalize ranges) []).map Edit.replacement) rope rope')
    (c : Selection) :
    c ∈ cursorsAfterReplacements 0 0 (normalize ranges) ↔
      ∃ t ∈ normalize ranges, c = Selection.cursor
        (deletionPoint rope (ranges.map Selection.range) t.start) := by
  have hcursor : ∀ front t back, normalize ranges = front ++ t :: back →
      (cursorsAfterReplacements 0 0 (normalize ranges))[front.length]? =
        some (Selection.cursor
          (deletionPoint rope (ranges.map Selection.range) t.start)) := by
    intro front t back hsplit
    rw [hsplit] at h
    obtain ⟨-, -, hget⟩ := cursorsAfterReplacements_split h
    rw [substitute_before hvalid hsplit, List.append_nil] at hget
    rw [hsplit]
    exact hget
  constructor
  · intro hc
    obtain ⟨i, hi⟩ := List.mem_iff_getElem?.mp hc
    have hlt : i < (normalize ranges).length := by
      rw [← cursorsAfterReplacements_length 0 0 (normalize ranges)]
      exact (List.getElem?_eq_some_iff.mp hi).1
    have hget := hcursor ((normalize ranges).take i) (normalize ranges)[i]
      ((normalize ranges).drop (i + 1)) (by simp)
    rw [List.length_take, min_eq_left hlt.le, hi] at hget
    exact ⟨_, List.getElem_mem hlt, Option.some.inj hget⟩
  · rintro ⟨t, ht, rfl⟩
    obtain ⟨front, back, hsplit⟩ := List.append_of_mem ht
    exact List.mem_of_getElem? (hcursor front t back hsplit)

include hvalid in
theorem deletesExactly_of_splices (h : Splices Char.utf8Size 0
    ((replacements (normalize ranges) []).map Edit.replacement)
    rope rope') :
    DeletesExactly rope (ranges.map Selection.range) rope'
      (normalize (cursorsAfterReplacements 0 0 (normalize ranges))) := by
  have hempty : ∀ c ∈ cursorsAfterReplacements 0 0 (normalize ranges),
      c.isEmpty = true := cursorsAfterReplacements_empty
  obtain ⟨hmem, hascending⟩ := normalize_cursors hempty
  refine ⟨?_, fun c => ?_, hascending⟩
  · rw [← substitute_of_splices h, substitute_deletions, Rope.without]
    exact congrArg (fun covered => uncovered _ covered 0 rope)
      (funext any_normalize)
  · rw [hmem, mem_cursors_iff hvalid h]
    constructor
    · rintro ⟨t, ht, rfl⟩
      obtain ⟨s, hs, hst, -⟩ := (normalize_madeOf ranges t ht).start_mem
      refine ⟨s.range, List.mem_map.mpr ⟨s, hs, rfl⟩, ?_⟩
      rw [← hst]
      rfl
    · rintro ⟨r, hr, rfl⟩
      obtain ⟨s, hs, rfl⟩ := List.mem_map.mp hr
      obtain ⟨t, ht, hstart, hstop, -⟩ := normalize_contains hs
      refine ⟨t, ht, congrArg _ ?_⟩
      refine deletionPoint_congr
        (normalize_valid hvalid t ht).start_boundary
        (hvalid s hs).start_boundary hstart fun p hp hlt => ?_
      have hle := s.start_le_stop
      change p < s.start at hlt
      obtain ⟨u, hu, hcontains⟩ := (normalize_madeOf ranges t ht).covered p
        (by
          simp only [ByteRange.contains_iff, Selection.range]
          omega)
      exact ⟨u.range, List.mem_map.mpr ⟨u, hu, rfl⟩, hcontains⟩

end Deletion

/-! ## The operations -/

/-- What `backspace` deletes at a selection. -/
def backspaceRange (g : Graphemes) (rope : Rope) (s : Selection) : ByteRange :=
  if s.isEmpty then ⟨rope.prevGraphemeBoundary g s.head, s.head⟩ else s.range

/-- What `deleteForward` deletes at a selection. -/
def deleteForwardRange (g : Graphemes) (rope : Rope) (s : Selection) :
    ByteRange :=
  if s.isEmpty then ⟨s.head, rope.nextGraphemeBoundary g s.head⟩ else s.range

/-- If an operation changed the text, undoing once restores it and hands out
the normalised selections that the operation was given. -/
def UndoneAtOnce (b : Buffer) (selections : List Selection) (b' : Buffer) :
    Prop :=
  b'.rope ≠ b.rope → ∀ revision,
    (b'.undoWithSelections revision).1.rope = b.rope ∧
      ∃ id, (b'.undoWithSelections revision).2 =
        some (id, some (normalize selections))

/-- The operation typed a text over each of the normalised selections. -/
def Types (b : Buffer) (selections : List Selection) (text : List Char)
    (result : Buffer × Except EditError EditOutcome) : Prop :=
  ∃ outcome, result.2 = .ok outcome ∧
    result.1.rope =
      substitute b.rope (replacements (normalize selections) text) ∧
    (text ≠ [] →
      BehindCopies b.rope (normalize selections) text outcome.selections) ∧
    UndoneAtOnce b selections result.1

/-- The operation deleted a range for each of the normalised selections. -/
def Deletes (b : Buffer) (selections : List Selection)
    (range : Selection → ByteRange)
    (result : Buffer × Except EditError EditOutcome) : Prop :=
  ∃ outcome, result.2 = .ok outcome ∧
    DeletesExactly b.rope ((normalize selections).map range) result.1.rope
      outcome.selections ∧
    UndoneAtOnce b selections result.1

namespace Buffer

theorem applyWithSelections_undoneAtOnce (b : Buffer) (revision : ℕ)
    (edits : List Edit) (selections after : List Selection) :
    UndoneAtOnce b selections (b.applyWithSelections revision edits
      (normalize selections) after).1 := by
  have hfst : (b.applyWithSelections revision edits (normalize selections)
      after).1 =
        (b.editInner revision edits (some ⟨normalize selections, after⟩)).1 :=
    rfl
  rw [hfst]
  rcases editInner_cases b revision edits
      (some ⟨normalize selections, after⟩) with
    hsame | ⟨changes, hrope, hfits, hhistory, -⟩
  · rw [hsame]
    exact fun hne => absurd rfl hne
  · intro _ r
    have hstack := congrArg EditHistory.undo hhistory
    refine ⟨?_, b.nextEdit, undoWithSelections_of_cons hstack r⟩
    rw [undoWithSelections_fst, undo_of_cons hstack]
    change changes.reverse.foldl revertChange _ = b.rope
    rw [hrope]
    exact hfits.revert_reapply

variable {b : Buffer} {selections : List Selection}

theorem insertAt_types (h : ∀ s ∈ selections, s.Valid b.rope) (revision : ℕ)
    (text : List Char) :
    Types b selections text (b.insertAt revision selections text) := by
  have hapart := normalize_apart selections
  obtain ⟨⟨id, hid⟩, hsplices⟩ := applyWithSelections_spec
    (inOrder_replace (normalize_valid h) hapart text) revision
    (normalize selections) (normalize (cursorsAfterReplacements
      (Rope.lenBytes text) 0 (normalize selections)))
  exact ⟨_, hid, (substitute_of_splices hsplices).symm,
    fun htext => behindCopies_normalize hapart htext hsplices,
    applyWithSelections_undoneAtOnce b revision _ selections _⟩

theorem deleteRanges_deletes {ranges : List Selection}
    (hranges : ∀ s ∈ ranges, s.Valid b.rope) (revision : ℕ)
    {range : Selection → ByteRange}
    (hrange : ranges.map Selection.range = (normalize selections).map range) :
    Deletes b selections range
      (b.deleteRanges revision ranges (normalize selections)) := by
  obtain ⟨⟨id, hid⟩, hsplices⟩ := applyWithSelections_spec
    (inOrder_replace (normalize_valid hranges) (normalize_apart ranges) [])
    revision (normalize selections)
    (normalize (cursorsAfterReplacements 0 0 (normalize ranges)))
  refine ⟨_, hid, ?_, applyWithSelections_undoneAtOnce b revision _
    selections _⟩
  rw [← hrange]
  exact deletesExactly_of_splices hranges hsplices

theorem backspace_deletes (g : Graphemes)
    (h : ∀ s ∈ selections, s.Valid b.rope) (revision : ℕ) :
    Deletes b selections (backspaceRange g b.rope)
      (b.backspace g revision selections) := by
  have hvalid := normalize_valid h
  refine deleteRanges_deletes ?_ revision ?_
  · intro s hs
    obtain ⟨t, ht, rfl⟩ := List.mem_map.mp hs
    have ht := hvalid t ht
    split
    · exact .of_ends (Rope.prevGraphemeBoundary_isBoundary g ht.head_boundary)
        ht.head_boundary
    · exact ht
  · rw [List.map_map]
    refine List.map_congr_left fun s hs => ?_
    have hle := Rope.prevGraphemeBoundary_le g (hvalid s hs).head_boundary
    simp only [Function.comp, backspaceRange]
    split
    · simp only [Selection.range, Selection.start, Selection.stop,
        min_eq_left hle, max_eq_right hle]
    · rfl

theorem deleteForward_deletes (g : Graphemes)
    (h : ∀ s ∈ selections, s.Valid b.rope) (revision : ℕ) :
    Deletes b selections (deleteForwardRange g b.rope)
      (b.deleteForward g revision selections) := by
  have hvalid := normalize_valid h
  refine deleteRanges_deletes ?_ revision ?_
  · intro s hs
    obtain ⟨t, ht, rfl⟩ := List.mem_map.mp hs
    have ht := hvalid t ht
    split
    · exact .of_ends ht.head_boundary
        (Rope.nextGraphemeBoundary_isBoundary g ht.head_boundary)
    · exact ht
  · rw [List.map_map]
    refine List.map_congr_left fun s hs => ?_
    have hle := Rope.le_nextGraphemeBoundary g (hvalid s hs).head_boundary
    simp only [Function.comp, deleteForwardRange]
    split
    · simp only [Selection.range, Selection.start, Selection.stop,
        min_eq_left hle, max_eq_right hle]
    · rfl

/-- Typing and deleting act at every normalised selection at once.  These
select the same characters as the given selections. -/
theorem multiCursorTyping (g : Graphemes) (b : Buffer) (revision : ℕ)
    {selections : List Selection} (h : ∀ s ∈ selections, s.Valid b.rope) :
    (∀ o, (∃ t ∈ normalize selections, t.range.contains o = true) ↔
        ∃ s ∈ selections, s.range.contains o = true) ∧
      (∀ text,
        Types b selections text (b.insertAt revision selections text)) ∧
      Deletes b selections (backspaceRange g b.rope)
        (b.backspace g revision selections) ∧
      Deletes b selections (deleteForwardRange g b.rope)
        (b.deleteForward g revision selections) :=
  ⟨normalize_covers_iff selections, insertAt_types h revision,
    backspace_deletes g h revision, deleteForward_deletes g h revision⟩

/-- Two cursors, given in the wrong order. -/
def twoCursors : List Selection := [Selection.cursor 3, Selection.cursor 0]

theorem twoCursors_valid :
    ∀ s ∈ twoCursors, s.Valid (new 0 "ab\ncd".toList).rope := by
  simp only [twoCursors, List.forall_mem_cons, List.not_mem_nil,
    false_implies, implies_true, and_true]
  exact ⟨cursor_valid (by decide), cursor_valid (by decide)⟩

theorem multiCursorTyping_two :
    Types (new 0 "ab\ncd".toList) twoCursors "X".toList
        ((new 0 "ab\ncd".toList).insertAt 1 twoCursors "X".toList) ∧
      ((new 0 "ab\ncd".toList).insertAt 1 twoCursors "X".toList).1.rope =
        "Xab\nXcd".toList :=
  ⟨(multiCursorTyping charGraphemes _ 1 twoCursors_valid).2.1 _, by decide⟩

end Buffer

end Tempr.Editor
