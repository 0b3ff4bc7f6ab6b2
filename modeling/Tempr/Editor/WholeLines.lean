import Tempr.Editor.TouchedLines

/-!
# Deleting and duplicating whole lines

Deleting keeps the lines that no selection touches; duplicating puts a copy of
every run of touched lines behind it.  The offsets that the code computes are
those of the runs in the lists of lines.
-/

namespace Tempr.Editor

open Tempr.Support

/-! ## Deleting lines -/

/-- The touched lines are gone, and one cursor stands where each run of them
started. -/
structure DeletesLines (rope : Rope) (selections : List Selection)
    (rope' : Rope) (cursors : List Selection) : Prop where
  text_eq : rope' = joinLines
    (((touchedLines rope selections).filter fun x => !x.2).map Prod.fst)
  length_eq : cursors.length = (touchedRuns rope selections).runs.length
  place : ∀ front r back,
    (touchedRuns rope selections).runs = front ++ r :: back →
    ∃ behind, rope' =
        joinLines (front.flatMap Run.before ++ r.before) ++ behind ∧
      cursors[front.length]? = some (Selection.cursor
        (Rope.lenBytes (joinLines (front.flatMap Run.before ++ r.before))))

/-- Cursors where the runs start once they are deleted; `o` is the length of
the text kept so far. -/
def deletionCursors : ℕ → List (Run Line) → List Selection
  | _, [] => []
  | o, r :: rs =>
      let place := o + Rope.lenBytes (joinLines r.before)
      Selection.cursor place :: deletionCursors place rs

theorem deletionCursors_length (o : ℕ) (rs : List (Run Line)) :
    (deletionCursors o rs).length = rs.length := by
  induction rs generalizing o with
  | nil => rfl
  | cons r rs ih => simp only [deletionCursors, List.length_cons, ih]

theorem deletionCursors_getElem? (o : ℕ) (front : List (Run Line))
    (r : Run Line) (back : List (Run Line)) :
    (deletionCursors o (front ++ r :: back))[front.length]? =
      some (Selection.cursor (o +
        Rope.lenBytes (joinLines (front.flatMap Run.before ++ r.before)))) := by
  induction front generalizing o with
  | nil => simp [deletionCursors]
  | cons f front ih =>
      simp only [List.cons_append, deletionCursors, List.length_cons,
        List.getElem?_cons_succ, ih, List.flatMap_cons, List.append_assoc,
        joinLines_append, Rope.lenBytes_append, Nat.add_assoc]

theorem cursorsAfterDeletions_blockRanges {o shift : ℕ} (h : shift ≤ o)
    (rs : List (Run Line)) (rest : List Line) :
    cursorsAfterDeletions shift (blockRanges o rs rest) =
      deletionCursors (o - shift) rs := by
  induction rs generalizing o shift with
  | nil => rfl
  | cons r rs ih =>
      simp only [blockRanges, cursorsAfterDeletions, deletionCursors,
        ByteRange.len]
      rw [ih (by omega)]
      have hplace : o + Rope.lenBytes (joinLines r.before) - shift =
          o - shift + Rope.lenBytes (joinLines r.before) := by omega
      have hnext : o + Rope.lenBytes (joinLines r.before) +
            Rope.lenBytes (joinLines r.block) -
          (shift + (o + Rope.lenBytes (joinLines r.before) +
              Rope.lenBytes (joinLines r.block) -
            (o + Rope.lenBytes (joinLines r.before)))) =
          o - shift + Rope.lenBytes (joinLines r.before) := by omega
      rw [hplace, hnext]

theorem splices_deletion (base : ℕ) (rs : List (Run Line))
    (rest : List Line) :
    Splices Char.utf8Size base
      ((blockRanges base rs rest).map fun b => ⟨b.1.start, b.1.stop, []⟩)
      (joinLines (runsToList rs ++ rest))
      (joinLines (rs.flatMap Run.before ++ rest)) := by
  induction rs generalizing base with
  | nil => exact .nil _ _
  | cons r rs ih =>
      have hxs : joinLines (runsToList (r :: rs) ++ rest) =
          joinLines r.before ++ joinLines r.block ++
            joinLines (runsToList rs ++ rest) := by
        simp [runsToList]
      have hys : joinLines ((r :: rs).flatMap Run.before ++ rest) =
          joinLines r.before ++ [] ++
            joinLines (rs.flatMap Run.before ++ rest) := by
        simp
      rw [hxs, hys]
      exact .cons rfl rfl (ih _)

theorem deletesLines_of_splices {rope rope' : Rope}
    {selections : List Selection} (h : ∀ s ∈ selections, s.Valid rope)
    (hsplices : Splices Char.utf8Size 0
      ((rope.lineBlocks selections).map fun b => ⟨b.1.start, b.1.stop, []⟩)
      rope rope') :
    DeletesLines rope selections rope'
      (cursorsAfterDeletions 0 (rope.lineBlocks selections)) := by
  have hlist := touchedRuns_toList rope selections
  have hunmarked := runsOf_unmarked (touchedLines rope selections)
  change (touchedRuns rope selections).runs.flatMap Run.before ++
    (touchedRuns rope selections).rest = _ at hunmarked
  have hdeleted := splices_deletion 0 (touchedRuns rope selections).runs
    (touchedRuns rope selections).rest
  rw [← lineBlocks_eq_blockRanges h, hlist, joinLines_lines] at hdeleted
  have htext : rope' = joinLines
      ((touchedRuns rope selections).runs.flatMap Run.before ++
        (touchedRuns rope selections).rest) := by
    rw [← simultaneous_of_splices Rope.utf8Size_pos hsplices,
      simultaneous_of_splices Rope.utf8Size_pos hdeleted]
  rw [lineBlocks_eq_blockRanges h,
    cursorsAfterDeletions_blockRanges (Nat.zero_le _)]
  refine ⟨by rw [htext, hunmarked], deletionCursors_length _ _, ?_⟩
  intro front r back hruns
  rw [hruns] at htext ⊢
  refine ⟨joinLines (back.flatMap Run.before ++
    (touchedRuns rope selections).rest), ?_, ?_⟩
  · rw [htext]
    simp
  · rw [deletionCursors_getElem?]
    simp

/-! ## Duplicating lines -/

/-- Lines that all have a terminator. -/
def terminated (ls : List Line) : List Line :=
  ls.map fun l => if l.terminator = [] then { l with terminator := ['\n'] }
    else l

/-- The lines with every run followed by a copy of itself. -/
def duplicatedLines (rs : List (Run Line)) : List Line :=
  rs.flatMap fun r => r.before ++ terminated r.block ++ r.block

/-- The selection `e` selects in the copy of a run what `s` selects in the
run. -/
def SelectsInCopy (rope : Rope) (runs : Runs Line) (rope' : Rope)
    (s e : Selection) : Prop :=
  ∃ front r back, runs.runs = front ++ r :: back ∧
    ∃ before after before' after',
      rope = before ++ joinLines r.block ++ after ∧
      before = joinLines (runsToList front ++ r.before) ∧
      rope' = before' ++ joinLines r.block ++ after' ∧
      before' = joinLines
        (duplicatedLines front ++ r.before ++ terminated r.block) ∧
      Rope.lenBytes before ≤ s.start ∧
      s.stop ≤ Rope.lenBytes (before ++ joinLines r.block) ∧
      e.anchor = Rope.lenBytes before' + (s.anchor - Rope.lenBytes before) ∧
      e.head = Rope.lenBytes before' + (s.head - Rope.lenBytes before) ∧
      rope'.byteSlice e.start e.stop = rope.byteSlice s.start s.stop

/-- Every run of touched lines is followed by a copy of itself, and the
returned selections are the old ones moved onto the copies. -/
structure DuplicatesLines (rope : Rope) (selections : List Selection)
    (rope' : Rope) (copies : List Selection) : Prop where
  text_eq : rope' = joinLines
    (duplicatedLines (touchedRuns rope selections).runs ++
      (touchedRuns rope selections).rest)
  selections : List.Forall₂
    (SelectsInCopy rope (touchedRuns rope selections) rope')
    (normalize selections) copies

/-- What stands between the last line of a text and its copy. -/
def separator (rs : List (Run Line)) (rest : List Line) : List Char :=
  if rs.isEmpty && rest.isEmpty then ['\n'] else []

/-- The runs of a text with the texts that duplicate them. -/
def copyRanges : ℕ → List (Run Line) → List Line →
    List (ByteRange × List Char)
  | _, [], _ => []
  | o, r :: rs, rest =>
      let start := o + Rope.lenBytes (joinLines r.before)
      let stop := start + Rope.lenBytes (joinLines r.block)
      (⟨start, stop⟩, separator rs rest ++ joinLines r.block) ::
        copyRanges stop rs rest

/-- Only lines at the end of a text need a terminator. -/
theorem joinLines_terminated {ls more : List Line} (hne : ls ≠ [])
    (h : FormedLines (ls ++ more)) :
    joinLines (terminated ls) =
      joinLines ls ++ (if more.isEmpty then ['\n'] else []) := by
  induction ls with
  | nil => exact absurd rfl hne
  | cons l ls ih =>
      have hterm := h.terminator_iff
      by_cases hlast : ls = []
      · subst hlast
        cases more with
        | nil =>
            have hnil := hterm.mpr rfl
            simp [terminated, Line.text, hnil]
        | cons m more =>
            have hnot : l.terminator ≠ [] := by simpa using hterm
            simp [terminated, hnot]
      · have hmore : ls ++ more ≠ [] := by simp [hlast]
        have hnot : l.terminator ≠ [] := mt hterm.mp hmore
        have hrest := ih hlast (h.tail hmore)
        change joinLines ((if l.terminator = [] then _ else l) ::
          terminated ls) = _
        rw [if_neg hnot, joinLines_cons, hrest, joinLines_cons,
          List.append_assoc]

section Copies

variable {rest : List Line}

/-- A run and what follows it, cut out of formed lines. -/
theorem joinLines_terminated_block {r : Run Line} {rs : List (Run Line)}
    (hblock : ∀ s ∈ r :: rs, s.block ≠ [])
    (h : FormedLines (runsToList (r :: rs) ++ rest)) :
    joinLines (terminated r.block) =
      joinLines r.block ++ separator rs rest := by
  have hcut : runsToList (r :: rs) ++ rest =
      r.before ++ (r.block ++ (runsToList rs ++ rest)) := by
    simp [runsToList_cons]
  have hne := hblock r (by simp)
  rw [hcut] at h
  rw [joinLines_terminated hne (h.of_append (by simp [hne])),
    isEmpty_behind hblock]
  rfl

theorem copyText_blockRanges {rope p : Rope} {rs : List (Run Line)}
    (hrope : rope = p ++ joinLines (runsToList rs ++ rest)) :
    ((blockRanges (Rope.lenBytes p) rs rest).map
      fun b => (b.1, copyText rope b)) =
        copyRanges (Rope.lenBytes p) rs rest := by
  induction rs generalizing p with
  | nil => rfl
  | cons r rs ih =>
      have hcut : rope = p ++ joinLines r.before ++ joinLines r.block ++
          joinLines (runsToList rs ++ rest) := by
        rw [hrope]
        simp [runsToList_cons]
      have hslice := byteSlice_of_parts hcut rfl rfl
      rw [Rope.lenBytes_append] at hslice
      have hrest := ih hcut
      rw [Rope.lenBytes_append, Rope.lenBytes_append] at hrest
      have hcopy : ∀ last : Bool, copyText rope (⟨Rope.lenBytes p +
            Rope.lenBytes (joinLines r.before), Rope.lenBytes p +
              Rope.lenBytes (joinLines r.before) +
              Rope.lenBytes (joinLines r.block)⟩, !last) =
          (if last then ['\n'] else []) ++ joinLines r.block := by
        intro last
        rw [copyText, hslice]
        cases last with
        | true => rfl
        | false => rfl
      simp only [blockRanges, copyRanges, List.map_cons, hrest, hcopy,
        separator]

theorem splices_copies (base : ℕ) {rs : List (Run Line)}
    (hblock : ∀ r ∈ rs, r.block ≠ [])
    (h : rs ≠ [] → FormedLines (runsToList rs ++ rest)) :
    Splices Char.utf8Size base
      ((copyRanges base rs rest).map fun c => ⟨c.1.stop, c.1.stop, c.2⟩)
      (joinLines (runsToList rs ++ rest))
      (joinLines (duplicatedLines rs ++ rest)) := by
  induction rs generalizing base with
  | nil => exact .nil _ _
  | cons r rs ih =>
      have hformed := h (by simp)
      have hterm := joinLines_terminated_block hblock hformed
      rw [List.forall_mem_cons] at hblock
      have hxs : joinLines (runsToList (r :: rs) ++ rest) =
          joinLines (r.before ++ r.block) ++ [] ++
            joinLines (runsToList rs ++ rest) := by
        simp [runsToList_cons]
      have hys : joinLines (duplicatedLines (r :: rs) ++ rest) =
          joinLines (r.before ++ r.block) ++
            (separator rs rest ++ joinLines r.block) ++
              joinLines (duplicatedLines rs ++ rest) := by
        simp [duplicatedLines, hterm]
      rw [hxs, hys]
      refine .cons ?_ rfl (ih _ hblock.2 ?_)
      · change base + Rope.lenBytes (joinLines (r.before ++ r.block)) = _
        simp only [joinLines_append, Rope.lenBytes_append, Nat.add_assoc]
      · intro hne
        exact (formedLines_behind hblock.2 hformed hne)

/-- In front of other lines every copy is as long as its run. -/
theorem lenBytes_duplicatedLines {front : List (Run Line)}
    (hblock : ∀ r ∈ front, r.block ≠ []) {more : List Line}
    (hmore : more ≠ []) (h : FormedLines (runsToList front ++ more)) :
    Rope.lenBytes (joinLines (duplicatedLines front)) =
      Rope.lenBytes (joinLines (runsToList front)) +
        Rope.lenBytes (joinLines (front.flatMap Run.block)) := by
  induction front with
  | nil => rfl
  | cons r front ih =>
      rw [List.forall_mem_cons] at hblock
      have hcut : runsToList (r :: front) ++ more =
          r.before ++ (r.block ++ (runsToList front ++ more)) := by
        simp [runsToList_cons]
      rw [hcut] at h
      have hbehind : runsToList front ++ more ≠ [] := by simp [hmore]
      have hblocks := h.of_append (by simp [hbehind])
      have hterm := joinLines_terminated hblock.1 hblocks
      rw [if_neg (by simpa using hbehind), List.append_nil] at hterm
      have hrest := ih hblock.2 (hblocks.of_append hbehind)
      simp only [duplicatedLines, List.flatMap_cons, runsToList_cons,
        joinLines_append, Rope.lenBytes_append, hterm] at hrest ⊢
      omega

theorem le_blockRanges_start {o : ℕ} {rs : List (Run Line)} :
    ∀ b ∈ blockRanges o rs rest, o ≤ b.1.start := by
  induction rs generalizing o with
  | nil => simp [blockRanges]
  | cons r rs ih =>
      simp only [blockRanges, List.forall_mem_cons]
      refine ⟨Nat.le_add_right _ _, fun b hb => ?_⟩
      have := ih b hb
      omega

/-- Skipping stops at the run `r`, which holds the selection `s`; what starts at
or behind `s` lies in the runs from there on. -/
structure StopsAt (o : ℕ) (rest : List Line) (rs : List (Run Line))
    (s : Selection) (skipped : List (Run Line)) (r : Run Line)
    (back : List (Run Line)) : Prop where
  runs_eq : rs = skipped ++ r :: back
  skips : ∀ shift, skipBlocks s.start shift (copyRanges o rs rest) =
    (shift + Rope.lenBytes (joinLines (skipped.flatMap Run.block)),
      copyRanges (o + Rope.lenBytes (joinLines (runsToList skipped)))
        (r :: back) rest)
  start_le : o + Rope.lenBytes (joinLines (runsToList skipped ++ r.before)) ≤
    s.start
  stop_le : s.stop ≤ o + Rope.lenBytes
    (joinLines (runsToList skipped ++ r.before ++ r.block))
  leaves : ∀ t : Selection, s.start ≤ t.start →
    (∃ b ∈ blockRanges o rs rest, Covers b t) →
    ∃ b ∈ blockRanges (o + Rope.lenBytes (joinLines (runsToList skipped)))
      (r :: back) rest, Covers b t

section Stops

variable {o : ℕ} {rs : List (Run Line)} {r : Run Line} {s : Selection}

theorem stopsAt_head
    (hlast : ¬(rs ≠ [] ∧ o + Rope.lenBytes (joinLines r.before) +
      Rope.lenBytes (joinLines r.block) ≤ s.start))
    (hs : ∃ b ∈ blockRanges o (r :: rs) rest, Covers b s) :
    StopsAt o rest (r :: rs) s [] r rs := by
  have hcovers : Covers (⟨o + Rope.lenBytes (joinLines r.before),
      o + Rope.lenBytes (joinLines r.before) +
        Rope.lenBytes (joinLines r.block)⟩,
          !(rs.isEmpty && rest.isEmpty)) s := by
    obtain ⟨b, hb, hbs⟩ := hs
    rcases List.mem_cons.mp hb with rfl | hb
    · exact hbs
    · have hle := le_blockRanges_start b hb
      have hstart := hbs.start_le
      have hne : rs ≠ [] := by
        rintro rfl
        simp [blockRanges] at hb
      exact absurd ⟨hne, by omega⟩ hlast
  refine ⟨rfl, fun shift => ?_, ?_, ?_, fun t _ ht => ht⟩
  · cases rs with
    | nil => rfl
    | cons next rs =>
        simp only [ne_eq, reduceCtorEq, not_false_eq_true, true_and] at hlast
        simp only [copyRanges, skipBlocks, if_neg hlast]
        rfl
  · simpa [runsToList] using hcovers.start_le
  · have := hcovers.stop_le
    simp only [runsToList, List.flatMap_nil, List.nil_append,
      joinLines_append, Rope.lenBytes_append] at this ⊢
    omega

/-- Nothing that starts behind a run lies in it. -/
theorem covers_behind {t : Selection} (hne : rs ≠ [])
    (hle : o + Rope.lenBytes (joinLines r.before) +
      Rope.lenBytes (joinLines r.block) ≤ t.start)
    (ht : ∃ b ∈ blockRanges o (r :: rs) rest, Covers b t) :
    ∃ b ∈ blockRanges (o + Rope.lenBytes (joinLines r.before) +
      Rope.lenBytes (joinLines r.block)) rs rest, Covers b t := by
  obtain ⟨b, hb, hbt⟩ := ht
  rcases List.mem_cons.mp hb with rfl | hb
  · have := hbt.start_lt (by simp [hne])
    simp only at this
    omega
  · exact ⟨b, hb, hbt⟩

theorem StopsAt.cons {skipped back : List (Run Line)} {r' : Run Line}
    (hne : rs ≠ [])
    (hle : o + Rope.lenBytes (joinLines r.before) +
      Rope.lenBytes (joinLines r.block) ≤ s.start)
    (h : StopsAt (o + Rope.lenBytes (joinLines r.before) +
      Rope.lenBytes (joinLines r.block)) rest rs s skipped r' back) :
    StopsAt o rest (r :: rs) s (r :: skipped) r' back := by
  obtain ⟨hsplit, hskip, hstart, hstop, hleaves⟩ := h
  have hoffset : o + Rope.lenBytes (joinLines r.before) +
        Rope.lenBytes (joinLines r.block) +
        Rope.lenBytes (joinLines (runsToList skipped)) =
      o + Rope.lenBytes (joinLines (runsToList (r :: skipped))) := by
    simp only [runsToList_cons, joinLines_append, Rope.lenBytes_append]
    omega
  rw [hoffset] at hskip hleaves
  refine ⟨by rw [hsplit]; rfl, fun shift => ?_, ?_, ?_, fun t ht hcover =>
    hleaves t ht (covers_behind hne (hle.trans ht) hcover)⟩
  · obtain ⟨next, rs', rfl⟩ := List.exists_cons_of_ne_nil hne
    have hshift : shift + Rope.lenBytes (joinLines r.block) +
          Rope.lenBytes (joinLines (skipped.flatMap Run.block)) =
        shift + Rope.lenBytes
          (joinLines ((r :: skipped).flatMap Run.block)) := by
      simp only [List.flatMap_cons, joinLines_append, Rope.lenBytes_append]
      omega
    have hcopy : separator (next :: rs') rest ++ joinLines r.block =
        joinLines r.block := rfl
    rw [← hshift, ← hskip, copyRanges, copyRanges]
    simp only [skipBlocks, hcopy, if_pos hle]
  · simp only [runsToList_cons, joinLines_append,
      Rope.lenBytes_append] at hstart ⊢
    omega
  · simp only [runsToList_cons, joinLines_append,
      Rope.lenBytes_append] at hstop ⊢
    omega

end Stops

/-- Skipping stops at the run that holds the selection. -/
theorem exists_stopsAt {o : ℕ} {rs : List (Run Line)} {s : Selection}
    (hs : ∃ b ∈ blockRanges o rs rest, Covers b s) :
    ∃ skipped r back, StopsAt o rest rs s skipped r back := by
  induction rs generalizing o with
  | nil => simp [blockRanges] at hs
  | cons r rs ih =>
      by_cases hskip : rs ≠ [] ∧ o + Rope.lenBytes (joinLines r.before) +
          Rope.lenBytes (joinLines r.block) ≤ s.start
      · obtain ⟨hne, hle⟩ := hskip
        obtain ⟨skipped, r', back, hstops⟩ := ih (covers_behind hne hle hs)
        exact ⟨r :: skipped, r', back, hstops.cons hne hle⟩
      · exact ⟨[], r, rs, stopsAt_head hskip hs⟩

/-- The same text at two places reads the same at equal distances. -/
theorem byteSlice_copy {rope rope' a m b a' b' : Rope}
    (hrope : rope = a ++ m ++ b) (hrope' : rope' = a' ++ m ++ b') {i j : ℕ}
    (hi : rope.IsCharBoundary i) (hj : rope.IsCharBoundary j) (hij : i ≤ j)
    (hstart : Rope.lenBytes a ≤ i) (hstop : j ≤ Rope.lenBytes (a ++ m)) :
    rope'.byteSlice (Rope.lenBytes a' + (i - Rope.lenBytes a))
        (Rope.lenBytes a' + (j - Rope.lenBytes a)) =
      rope.byteSlice i j := by
  obtain ⟨x, y, z, hparts, hx, hy⟩ := Rope.exists_parts hi hj hij
  have hcut : a ++ (m ++ b) = x ++ (y ++ z) := by
    simpa using hrope.symm.trans hparts
  obtain ⟨m₁, rfl, hm₁⟩ := exists_append_of_span_le Rope.utf8Size_pos hcut
    (show Rope.lenBytes a ≤ Rope.lenBytes x by omega)
  have hcut' : (m₁ ++ y) ++ z = m ++ b := by simpa using hm₁.symm
  simp only [Rope.lenBytes_append] at hx hy hstop
  obtain ⟨m₂, rfl, -⟩ := exists_append_of_span_le Rope.utf8Size_pos hcut'
    (show Rope.lenBytes (m₁ ++ y) ≤ Rope.lenBytes m by
      rw [Rope.lenBytes_append]
      omega)
  have hcopy : rope' = a' ++ m₁ ++ y ++ (m₂ ++ b') := by simp [hrope']
  have hi' : Rope.lenBytes (a' ++ m₁) =
      Rope.lenBytes a' + (i - Rope.lenBytes a) := by
    rw [Rope.lenBytes_append]
    omega
  have hj' : Rope.lenBytes (a' ++ m₁) + Rope.lenBytes y =
      Rope.lenBytes a' + (j - Rope.lenBytes a) := by
    omega
  rw [← Rope.lenBytes_append] at hx hy
  rw [byteSlice_of_parts hcopy hi' hj', byteSlice_of_parts hparts hx hy]

/-- How far behind a run its copy starts, for a text that is `front`, the run
and `back`. -/
theorem lenBytes_copy_front {front back : List (Run Line)} {r : Run Line}
    (hblock : ∀ s ∈ front ++ r :: back, s.block ≠ [])
    (hformed : FormedLines (runsToList (front ++ r :: back) ++ rest)) :
    Rope.lenBytes (joinLines
        (duplicatedLines front ++ r.before ++ terminated r.block)) =
      Rope.lenBytes (joinLines (runsToList front ++ r.before)) +
        Rope.lenBytes (joinLines (front.flatMap Run.block)) +
        Rope.lenBytes (separator back rest ++ joinLines r.block) := by
  rw [List.forall_mem_append] at hblock
  rw [runsToList_append, List.append_assoc] at hformed
  have hne : runsToList (r :: back) ++ rest ≠ [] := by
    have hr := hblock.2 r (by simp)
    simp [runsToList_cons, hr]
  have hfront := lenBytes_duplicatedLines hblock.1 hne hformed
  have hterm := joinLines_terminated_block hblock.2
    (hformed.of_append hne)
  simp only [joinLines_append, Rope.lenBytes_append, hfront, hterm]
  omega

section Selects

variable {rope rope' : Rope} {runs : Runs Line}
  (hblock : ∀ r ∈ runs.runs, r.block ≠ [])
  (hformed : FormedLines (runsToList runs.runs ++ runs.rest))
  (hrope : rope = joinLines (runsToList runs.runs ++ runs.rest))
  (hrope' : rope' = joinLines (duplicatedLines runs.runs ++ runs.rest))

include hblock hformed hrope hrope' in
/-- A selection in the run `r` moves behind the copies in front of it and behind
the run itself. -/
theorem selectsInCopy_of_run {s : Selection} (hvalid : s.Valid rope)
    {front back : List (Run Line)} {r : Run Line}
    (hruns : runs.runs = front ++ r :: back)
    (hstart : Rope.lenBytes (joinLines (runsToList front ++ r.before)) ≤
      s.start)
    (hstop : s.stop ≤ Rope.lenBytes
      (joinLines (runsToList front ++ r.before) ++ joinLines r.block))
    {shift copyLen : ℕ}
    (hshift : shift = Rope.lenBytes (joinLines (front.flatMap Run.block)))
    (hcopyLen : copyLen =
      Rope.lenBytes (separator back runs.rest ++ joinLines r.block)) :
    SelectsInCopy rope runs rope' s
      ⟨s.anchor + shift + copyLen, s.head + shift + copyLen⟩ := by
  have hcut : rope = joinLines (runsToList front ++ r.before) ++
        joinLines r.block ++ joinLines (runsToList back ++ runs.rest) := by
    rw [hrope, hruns, runsToList_append, runsToList_cons]
    simp
  have hcut' : rope' = joinLines (duplicatedLines front ++ r.before ++
        terminated r.block) ++ joinLines r.block ++
      joinLines (duplicatedLines back ++ runs.rest) := by
    rw [hrope', hruns]
    simp [duplicatedLines]
  rw [hruns] at hblock hformed
  have hlen := lenBytes_copy_front hblock hformed
  rw [← hshift, ← hcopyLen] at hlen
  have hanchor := s.anchor_between
  have hhead := s.head_between
  refine ⟨front, r, back, hruns, _, _, _, _, hcut, rfl, hcut', rfl, hstart,
    hstop, ?_, ?_, ?_⟩
  · rw [hlen]
    simp only
    omega
  · rw [hlen]
    simp only
    omega
  · have hslice := byteSlice_copy hcut hcut' hvalid.start_boundary
      hvalid.stop_boundary s.start_le_stop hstart hstop
    rw [← hslice, hlen]
    simp only [Selection.start, Selection.stop] at hstart ⊢
    congr 1
    · omega
    · omega

include hblock hformed hrope hrope' in
/-- Every selection moves onto the copy of the run it lies in.  `front` holds
the runs that earlier selections moved past. -/
theorem selectionsOnCopies_selects {sels : List Selection}
    (hvalid : ∀ s ∈ sels, s.Valid rope)
    (hsorted : sels.Pairwise fun a b => a.stop ≤ b.start)
    {front rs : List (Run Line)} (hruns : runs.runs = front ++ rs)
    (hcovers : ∀ s ∈ sels, ∃ b ∈ blockRanges
      (Rope.lenBytes (joinLines (runsToList front))) rs runs.rest,
        Covers b s) :
    List.Forall₂ (SelectsInCopy rope runs rope') sels
      (selectionsOnCopies
        (Rope.lenBytes (joinLines (front.flatMap Run.block)))
        (copyRanges (Rope.lenBytes (joinLines (runsToList front))) rs
          runs.rest) sels) := by
  induction sels generalizing front rs with
  | nil => exact .nil
  | cons s sels ih =>
      rw [List.forall_mem_cons] at hvalid hcovers
      rw [List.pairwise_cons] at hsorted
      have hsle := s.start_le_stop
      obtain ⟨skipped, r, back, rfl, hskip, hstart, hstop, hleave⟩ :=
        exists_stopsAt hcovers.1
      rw [← List.append_assoc] at hruns
      have hoffset : Rope.lenBytes (joinLines (runsToList front)) +
            Rope.lenBytes (joinLines (runsToList skipped)) =
          Rope.lenBytes (joinLines (runsToList (front ++ skipped))) := by
        rw [runsToList_append, joinLines_append, Rope.lenBytes_append]
      have hshift : Rope.lenBytes (joinLines (front.flatMap Run.block)) +
            Rope.lenBytes (joinLines (skipped.flatMap Run.block)) =
          Rope.lenBytes
            (joinLines ((front ++ skipped).flatMap Run.block)) := by
        rw [List.flatMap_append, joinLines_append, Rope.lenBytes_append]
      rw [hoffset] at hskip hleave
      have hrest := ih hvalid.2 hsorted.2 hruns fun t ht =>
        hleave t (hsle.trans (hsorted.1 t ht)) (hcovers.2 t ht)
      simp only [selectionsOnCopies, hskip, hshift]
      refine .cons ?_ hrest
      refine selectsInCopy_of_run hblock hformed hrope hrope' hvalid.1 hruns
        ?_ ?_ rfl rfl
      · simp only [joinLines_append, Rope.lenBytes_append] at hoffset hstart ⊢
        omega
      · simp only [joinLines_append, Rope.lenBytes_append] at hoffset hstop ⊢
        omega

end Selects

end Copies

/-! ## The operations -/

theorem duplicatesLines_of_splices {rope rope' : Rope}
    {selections : List Selection} (h : ∀ s ∈ selections, s.Valid rope)
    (hsplices : Splices Char.utf8Size 0
      ((rope.lineBlocks selections).map fun b =>
        ⟨b.1.stop, b.1.stop, copyText rope b⟩) rope rope') :
    DuplicatesLines rope selections rope'
      (selectionsOnCopies 0 ((rope.lineBlocks selections).map
        fun b => (b.1, copyText rope b)) (normalize selections)) := by
  have hblock := touchedRuns_block_ne rope selections
  have hformed := touchedRuns_formed rope selections
  have hrope := joinLines_touchedRuns rope selections
  have hranges := lineBlocks_eq_blockRanges h
  have hcopies : ((rope.lineBlocks selections).map
        fun b => (b.1, copyText rope b)) =
      copyRanges 0 (touchedRuns rope selections).runs
        (touchedRuns rope selections).rest := by
    rw [hranges]
    exact copyText_blockRanges (p := []) hrope
  have hduplicated := splices_copies 0 hblock fun _ => hformed
  rw [← hcopies, ← hrope, List.map_map] at hduplicated
  have htext : rope' = joinLines
      (duplicatedLines (touchedRuns rope selections).runs ++
        (touchedRuns rope selections).rest) := by
    rw [← simultaneous_of_splices Rope.utf8Size_pos hsplices]
    exact simultaneous_of_splices Rope.utf8Size_pos hduplicated
  refine ⟨htext, ?_⟩
  rw [hcopies]
  refine selectionsOnCopies_selects hblock hformed hrope htext
    (normalize_valid h) ((normalize_apart selections).imp Selection.Apart.le)
    (List.nil_append _).symm fun s hs => ?_
  have hcovers := (lineBlocks_spec h).2 s hs
  rw [hranges] at hcovers
  exact hcovers

namespace Buffer

variable {b : Buffer} {selections : List Selection}

theorem duplicateLines_duplicates (h : ∀ s ∈ selections, s.Valid b.rope)
    (revision : ℕ) :
    ∃ outcome, (b.duplicateLines revision selections).2 = .ok outcome ∧
      DuplicatesLines b.rope selections
        (b.duplicateLines revision selections).1.rope outcome.selections := by
  obtain ⟨hblocks, -⟩ := lineBlocks_spec h
  rw [duplicateLines_eq hblocks]
  obtain ⟨⟨id, hid⟩, hsplices⟩ := applyWithSelections_spec
    (duplicateLines_inOrder hblocks) revision (normalize selections)
    (selectionsOnCopies 0 ((b.rope.lineBlocks selections).map
      fun block => (block.1, copyText b.rope block)) (normalize selections))
  refine ⟨_, hid, ?_⟩
  rw [List.map_map] at hsplices
  exact duplicatesLines_of_splices h hsplices

theorem deleteLines_deletes (h : ∀ s ∈ selections, s.Valid b.rope)
    (revision : ℕ) :
    ∃ outcome, (b.deleteLines revision selections).2 = .ok outcome ∧
      DeletesLines b.rope selections
        (b.deleteLines revision selections).1.rope outcome.selections := by
  obtain ⟨hblocks, -⟩ := lineBlocks_spec h
  obtain ⟨⟨id, hid⟩, hsplices⟩ := applyWithSelections_spec
    (deleteLines_inOrder hblocks) revision (normalize selections)
    (cursorsAfterDeletions 0 (b.rope.lineBlocks selections))
  refine ⟨_, hid, ?_⟩
  rw [List.map_map] at hsplices
  exact deletesLines_of_splices h hsplices

/-- Duplicating and deleting act on whole lines. -/
theorem wholeLines (b : Buffer) (revision : ℕ) {selections : List Selection}
    (h : ∀ s ∈ selections, s.Valid b.rope) :
    (∃ outcome, (b.duplicateLines revision selections).2 = .ok outcome ∧
        DuplicatesLines b.rope selections
          (b.duplicateLines revision selections).1.rope
          outcome.selections) ∧
      ∃ outcome, (b.deleteLines revision selections).2 = .ok outcome ∧
        DeletesLines b.rope selections
          (b.deleteLines revision selections).1.rope outcome.selections :=
  ⟨duplicateLines_duplicates h revision, deleteLines_deletes h revision⟩

/-- A cursor in the first line, and one in the unterminated last line. -/
def firstAndLast : List Selection := [Selection.cursor 0, Selection.cursor 4]

theorem firstAndLast_valid :
    ∀ s ∈ firstAndLast, s.Valid (new 0 "a\nb\nc".toList).rope := by
  simp only [firstAndLast, List.forall_mem_cons, List.not_mem_nil,
    false_implies, implies_true, and_true]
  exact ⟨cursor_valid (by decide), cursor_valid (by decide)⟩

theorem wholeLines_firstAndLast :
    (∃ outcome, ((new 0 "a\nb\nc".toList).duplicateLines 1
          firstAndLast).2 = .ok outcome ∧
        DuplicatesLines "a\nb\nc".toList firstAndLast
          ((new 0 "a\nb\nc".toList).duplicateLines 1 firstAndLast).1.rope
          outcome.selections) ∧
      ((new 0 "a\nb\nc".toList).duplicateLines 1 firstAndLast).1.rope =
        "a\na\nb\nc\nc".toList ∧
      ((new 0 "a\nb\nc".toList).deleteLines 1 firstAndLast).1.rope =
        "b\n".toList :=
  ⟨(wholeLines (new 0 "a\nb\nc".toList) 1 firstAndLast_valid).1,
    by decide, by decide⟩

end Buffer

end Tempr.Editor
