import Tempr.Editor.ExchangedLines
import Tempr.Editor.MoveOutcome

/-!
# Moving lines, run by run

The edits of a move replace each run of touched lines together with its
neighbour.  The text they leave is made of the segments of the runs, so that
the lines move exactly when all the runs that have a neighbour exchange cleanly
with it.
-/

namespace Tempr.Editor

open Tempr.Support

/-! ## Offsets around a run -/

section Offsets

variable {p : Rope} {l : Line} {v : Rope}

/-- A line is cut in front of its line feed. -/
theorem Line.Formed.exists_tail (hl : l.Formed)
    (hlast : l.terminator = [] → v = []) :
    ∃ q t, l.text ++ v = q ++ t ∧ '\n' ∉ q ∧ Rope.LineTail t ∧
      Rope.lineContent q t = l.content ∧
      (l.terminator ≠ [] →
        Rope.lenBytes l.text = Rope.lenBytes q + 1) := by
  obtain ⟨content, terminator⟩ := l
  rcases hl.terminator with hterm | hterm | hterm
  · obtain rfl : terminator = [] := hterm
    refine ⟨content, [], ?_, hl.content, .inl rfl, rfl, fun h => absurd rfl h⟩
    rw [hlast rfl]
    simp [Line.text]
  · obtain rfl : terminator = ['\n'] := hterm
    have hreturn := hl.feed rfl
    refine ⟨content, '\n' :: v, by simp [Line.text], hl.content,
      .inr ⟨v, rfl⟩, ?_, fun _ => Rope.lenBytes_append content ['\n']⟩
    simp only at hreturn
    simp [Rope.lineContent, Rope.dropReturn, hreturn]
  · obtain rfl : terminator = ['\r', '\n'] := hterm
    refine ⟨content ++ ['\r'], '\n' :: v, by simp [Line.text], ?_,
      .inr ⟨v, rfl⟩, ?_, fun _ => ?_⟩
    · simp only [List.mem_append, not_or]
      exact ⟨hl.content, by decide⟩
    · simp [Rope.lineContent, Rope.dropReturn]
    · simp only [Line.text, Rope.lenBytes_append]
      rfl

/-- The content of a line ends where the editor says. -/
theorem lineEnd_of_start (hp : Rope.LineStart p) (hl : l.Formed)
    (hlast : l.terminator = [] → v = []) :
    Rope.lineEnd (p ++ (l.text ++ v)) (Rope.lenBytes p) =
      Rope.lenBytes p + Rope.lenBytes l.content := by
  obtain ⟨q, t, hcut, hq, ht, hcontent, -⟩ := hl.exists_tail hlast
  have hfront : '\n' ∉ ([] : Rope) := by simp
  have hend := Rope.lineEnd_parts hp hfront hq ht
  rw [List.append_nil, List.nil_append, hcontent, List.append_assoc] at hend
  rw [hcut]
  exact hend

theorem lineEnd_of_last (hp : Rope.LineStart p) (hl : l.Formed)
    (hne : l.terminator ≠ []) :
    Rope.lineEnd (p ++ (l.text ++ v)) (Rope.lenBytes (p ++ l.text) - 1) =
      Rope.lenBytes p + Rope.lenBytes l.content := by
  obtain ⟨q, t, hcut, hq, ht, hcontent, hlen⟩ :=
    hl.exists_tail (v := v) fun h => absurd h hne
  have hback : '\n' ∉ ([] : Rope) := by simp
  have hend := Rope.lineEnd_parts hp hq hback ht
  rw [List.append_nil, hcontent, List.append_assoc] at hend
  have hoffset : Rope.lenBytes (p ++ l.text) - 1 = Rope.lenBytes (p ++ q) := by
    have := hlen hne
    simp only [Rope.lenBytes_append]
    omega
  rw [hcut, hoffset]
  exact hend

end Offsets

/-! ## A run as a block of the editor -/

section Blocks

variable {rope p : Rope} {block more : List Line}

theorem lineStart_joinLines (hp : Rope.LineStart p)
    (h : FormedLines (block ++ more)) (hne : more ≠ []) :
    Rope.LineStart (p ++ joinLines block) := by
  rcases List.eq_nil_or_concat' block with rfl | ⟨us, l, rfl⟩
  · simpa using hp
  · rw [List.append_assoc] at h
    have hl := (h.of_append (by simp)).head
    have hterm := (h.of_append (by simp)).terminator_iff
    obtain ⟨body, hbody, -⟩ := hl.exists_body (mt hterm.mp hne)
    refine .inr ⟨p ++ joinLines us ++ body, ?_⟩
    rw [joinLines_append, joinLines_cons, hbody]
    simp

theorem lenBytes_eq_body (ls : List Line) :
    Rope.lenBytes (joinLines ls) =
      Rope.lenBytes (bodyText ls) + Rope.lenBytes (lastBreak ls) := by
  rw [joinLines_eq_body, Rope.lenBytes_append]

theorem bodyText_concat (us : List Line) (l : Line) :
    bodyText (us ++ [l]) = joinLines us ++ l.content := by
  induction us with
  | nil => rfl
  | cons u us ih =>
      obtain ⟨m, ms, hcons⟩ : ∃ m ms, us ++ [l] = m :: ms :=
        List.exists_cons_of_ne_nil (by simp)
      rw [List.cons_append, hcons, bodyText, ← hcons, ih, joinLines_cons,
        List.append_assoc]

theorem lastBreak_concat (us : List Line) (l : Line) :
    lastBreak (us ++ [l]) = l.terminator := by
  induction us with
  | nil => rfl
  | cons u us ih =>
      obtain ⟨m, ms, hcons⟩ : ∃ m ms, us ++ [l] = m :: ms :=
        List.exists_cons_of_ne_nil (by simp)
      rw [List.cons_append, hcons, lastBreak, ← hcons, ih]

/-- The offsets of a block at `o`, and whether other lines follow. -/
def blockAt (o : ℕ) (block more : List Line) : ByteRange × Bool :=
  (⟨o, o + Rope.lenBytes (joinLines block)⟩, !more.isEmpty)

/-- The editor cuts a run in front of its last line break. -/
theorem blockParts_of_lines (hp : Rope.LineStart p)
    (hrope : rope = p ++ joinLines (block ++ more))
    (h : FormedLines (block ++ more)) (hne : block ≠ []) :
    BlockParts rope (blockAt (Rope.lenBytes p) block more) p (bodyText block)
      (lastBreak block) (joinLines more) := by
  have hbody := lenBytes_eq_body block
  have htext : rope = p ++ bodyText block ++ lastBreak block ++
      joinLines more := by
    rw [hrope, joinLines_append, joinLines_eq_body block]
    simp
  obtain ⟨us, l, rfl⟩ := (List.eq_nil_or_concat' block).resolve_left hne
  have hcut := h
  rw [List.append_assoc] at hcut
  have hlast := hcut.of_append (by simp)
  have hterm := hlast.terminator_iff
  by_cases hmore : more = []
  · subst hmore
    have hnil : lastBreak (us ++ [l]) = [] := by
      rw [lastBreak_concat, hterm.mpr rfl]
    rw [hnil] at hbody htext ⊢
    refine ⟨htext, hp, rfl, ?_, rfl, by simp [blockAt],
      fun _ => ⟨rfl, rfl⟩⟩
    simp only [contentEnd, blockAt, List.isEmpty_nil, Bool.not_true,
      Bool.false_eq_true, if_false, hbody]
    rfl
  · have hbreak : IsBreak (lastBreak (us ++ [l])) := by
      rw [lastBreak_concat]
      exact hlast.head.terminator.resolve_left (mt hterm.mp hmore)
    have hmark : more.isEmpty = false := by simpa using hmore
    have hstart := lineStart_joinLines hp hcut (by simp)
    have hend := lineEnd_of_last (v := joinLines more) hstart hlast.head
      (mt hterm.mp hmore)
    have hlines : p ++ joinLines us ++ (l.text ++ joinLines more) = rope := by
      rw [hrope]
      simp
    have hoffset : Rope.lenBytes (p ++ joinLines us ++ l.text) =
        Rope.lenBytes p + Rope.lenBytes (joinLines (us ++ [l])) := by
      simp
    have hcontent : contentEnd rope
          (blockAt (Rope.lenBytes p) (us ++ [l]) more) =
        Rope.lenBytes p + Rope.lenBytes (bodyText (us ++ [l])) := by
      rw [hlines, hoffset] at hend
      simp only [contentEnd, blockAt, hmark, Bool.not_false, if_true, hend,
        bodyText_concat, Rope.lenBytes_append]
      omega
    refine ⟨htext, hp, rfl, hcontent.symm, ?_, fun _ => hbreak,
      by simp [blockAt, hmark]⟩
    rw [hcontent]
    simp only [blockAt, hbody]
    omega

end Blocks

/-! ## The edit of a run -/

section Edits

variable {rope p : Rope} {block more : List Line}

theorem Line.Formed.lineStart {l : Line} (hl : l.Formed)
    (hne : l.terminator ≠ []) (p : Rope) : Rope.LineStart (p ++ l.text) := by
  obtain ⟨body, hbody, -⟩ := hl.exists_body hne
  rw [hbody, ← List.append_assoc]
  exact .append_feed _

/-- A run and the line `x` in front of it. -/
theorem movedEdit_up_eq {x : Line} (hp : Rope.LineStart p)
    (hrope : rope = p ++ joinLines (x :: (block ++ more)))
    (h : FormedLines (x :: (block ++ more))) (hne : block ≠ []) :
    movedEdit rope
        (blockAt (Rope.lenBytes p + Rope.lenBytes x.text) block more) .up =
      ⟨⟨Rope.lenBytes p, Rope.lenBytes p + Rope.lenBytes x.text +
          Rope.lenBytes (bodyText block)⟩,
        bodyText block ++ x.text.drop (trimEndBreaks x.text).length ++
          trimEndBreaks x.text⟩ := by
  have hmore : block ++ more ≠ [] := by simp [hne]
  have hterm := mt h.terminator_iff.mp hmore
  have hcut : rope = p ++ x.text ++ joinLines (block ++ more) := by
    rw [hrope, joinLines_cons, List.append_assoc]
  have hparts := blockParts_of_lines (h.head.lineStart hterm p) hcut
    (h.tail hmore) hne
  rw [Rope.lenBytes_append] at hparts
  obtain ⟨body, hbody, hfeed⟩ := h.head.exists_body hterm
  have hline : rope.lineOf (Rope.lenBytes (p ++ x.text)) - 1 =
      p.count '\n' := by
    rw [hcut, Rope.lineOf_append, hbody]
    simp [Rope.count_feed_eq_zero hfeed]
  have hstart : prevStart rope
        (blockAt (Rope.lenBytes p + Rope.lenBytes x.text) block more) =
      Rope.lenBytes p := by
    rw [← Rope.lenBytes_append]
    change rope.lineStartOf (rope.lineOf (Rope.lenBytes (p ++ x.text)) - 1) = _
    rw [hline, hrope]
    exact Rope.offsetForPoint_lineStart hp _
  have hprev : prevLine rope
        (blockAt (Rope.lenBytes p + Rope.lenBytes x.text) block more) =
      x.text :=
    byteSlice_of_parts hcut hstart.symm rfl
  have hcontent := hparts.content_eq
  rw [Rope.lenBytes_append] at hcontent
  simp only [movedEdit, hstart, hprev, hparts.blockText_eq, ← hcontent]

/-- A run and the line `y` behind it. -/
theorem movedEdit_down_eq {y : Line} (hp : Rope.LineStart p)
    (hrope : rope = p ++ joinLines (block ++ y :: more))
    (h : FormedLines (block ++ y :: more)) (hne : block ≠ []) :
    movedEdit rope (blockAt (Rope.lenBytes p) block (y :: more)) .down =
      ⟨⟨Rope.lenBytes p, Rope.lenBytes p +
          Rope.lenBytes (joinLines block) + Rope.lenBytes y.content⟩,
        y.content ++ lastBreak block ++ bodyText block⟩ := by
  have hparts := blockParts_of_lines hp hrope h hne
  have hstart := lineStart_joinLines hp h (by simp)
  have hline := h.of_append (by simp)
  have hlast : y.terminator = [] → joinLines more = [] := by
    intro hnil
    rw [hline.terminator_iff.mp hnil, joinLines_nil]
  have hcut : rope =
      p ++ joinLines block ++ (y.text ++ joinLines more) := by
    rw [hrope]
    simp
  have hend := lineEnd_of_start hstart hline.head hlast
  rw [← hcut, Rope.lenBytes_append] at hend
  have hnext : nextLine rope
        (blockAt (Rope.lenBytes p) block (y :: more)) = y.content := by
    have hparts : rope = p ++ joinLines block ++ y.content ++
        (y.terminator ++ joinLines more) := by
      rw [hcut, Line.text]
      simp
    refine byteSlice_of_parts hparts (Rope.lenBytes_append _ _) ?_
    rw [Rope.lenBytes_append]
    exact hend.symm
  simp only [movedEdit, hnext, hparts.blockText_eq, hparts.blockBreak_eq]
  simp only [blockAt, hend]

end Edits

/-! ## The edits of all runs -/

/-- The edits of a move. -/
def moves (rope : Rope) (direction : LineDirection)
    (blocks : List (ByteRange × Bool)) : List (Replacement Char) :=
  ((movers rope direction blocks).map fun B =>
    movedEdit rope B direction).map Edit.replacement

theorem moves_cons (rope : Rope) (direction : LineDirection)
    (B : ByteRange × Bool) (blocks : List (ByteRange × Bool)) :
    moves rope direction (B :: blocks) =
      moves rope direction [B] ++ moves rope direction blocks := by
  simp only [moves, ← List.map_append]
  rw [← List.singleton_append, movers, List.filter_append]
  rfl

theorem moves_of_movable {rope : Rope} {direction : LineDirection}
    {B : ByteRange × Bool} (h : Movable rope direction B = true) :
    moves rope direction [B] =
      [(movedEdit rope B direction).replacement] := by
  simp [moves, movers, h]

theorem moves_of_not_movable {rope : Rope} {direction : LineDirection}
    {B : ByteRange × Bool} (h : ¬Movable rope direction B = true) :
    moves rope direction [B] = [] := by
  simp [moves, movers, h]

theorem segmentText_append (segs segs' : List Segment) :
    segmentText (segs ++ segs') = segmentText segs ++ segmentText segs' :=
  List.flatMap_append

theorem segmentText_kept (ls : List Line) :
    segmentText [kept ls] = joinLines ls :=
  List.append_nil _

/-- In front of the first run nothing moves. -/
theorem segmentText_lowerSegments_nil (ls : List Line) :
    segmentText (lowerSegments [] ls) = joinLines ls := by
  cases ls with
  | nil => rfl
  | cons y ys =>
      rw [lowerSegments]
      split
      case isTrue => simp [segmentText, kept]
      case isFalse =>
        simp [segmentText, kept, loweredPair, lastBreak, bodyText, Line.text]

section Splices

variable {rope p : Rope} {more : List Line} {rs : List (Replacement Char)}
  {ys : Rope}

/-- A run that stays where it is. -/
theorem splices_unmoved {direction : LineDirection} {B : ByteRange × Bool}
    (hstay : ¬Movable rope direction B = true) (ls : List Line)
    (htail : Splices Char.utf8Size (Rope.lenBytes (p ++ joinLines ls)) rs
      (joinLines more) ys) :
    Splices Char.utf8Size (Rope.lenBytes p) (moves rope direction [B] ++ rs)
      (joinLines (ls ++ more)) (joinLines ls ++ ys) := by
  rw [moves_of_not_movable hstay, List.nil_append, joinLines_append]
  rw [Rope.lenBytes_append] at htail
  exact htail.prepend _

/-- A run behind the line `x`. -/
theorem splices_raised_line {us block : List Line} {x : Line}
    (hp : Rope.LineStart p)
    (hrope : rope = p ++ joinLines (us ++ x :: (block ++ more)))
    (h : FormedLines (us ++ x :: (block ++ more))) (hne : block ≠ [])
    (htail : Splices Char.utf8Size
      (Rope.lenBytes (p ++ joinLines (us ++ x :: block))) rs
      (joinLines more) ys) :
    Splices Char.utf8Size (Rope.lenBytes p)
      (moves rope .up
        [blockAt (Rope.lenBytes (p ++ joinLines (us ++ [x]))) block more] ++
          rs)
      (joinLines (us ++ x :: (block ++ more)))
      (segmentText [kept us, raisedPair block x] ++ ys) := by
  have hbehind := h.of_append (by simp)
  have hterm := mt hbehind.terminator_iff.mp (by simp [hne])
  have hpos := Line.lenBytes_text_pos hterm
  have hstart := lineStart_joinLines hp h (by simp)
  rw [joinLines_append, ← List.append_assoc] at hrope
  have hedit := movedEdit_up_eq hstart hrope hbehind hne
  have hoffset : Rope.lenBytes (p ++ joinLines (us ++ [x])) =
      Rope.lenBytes (p ++ joinLines us) + Rope.lenBytes x.text := by
    simp [Nat.add_assoc]
  rw [← hoffset] at hedit
  have hmove : Movable rope .up (blockAt (Rope.lenBytes
      (p ++ joinLines (us ++ [x]))) block more) = true := by
    rw [movable_up_iff, hoffset]
    change _ + _ ≠ 0
    omega
  have hsegs : segmentText [kept us, raisedPair block x] ++ ys =
      joinLines us ++ (bodyText block ++
        x.text.drop (trimEndBreaks x.text).length ++
          trimEndBreaks x.text) ++ (lastBreak block ++ ys) := by
    simp [segmentText, kept, raisedPair]
  have htext : joinLines (us ++ x :: (block ++ more)) =
      joinLines us ++ (x.text ++ bodyText block) ++
        (lastBreak block ++ joinLines more) := by
    simp [joinLines_eq_body block]
  rw [moves_of_movable hmove, hedit, hsegs, htext, List.singleton_append]
  refine .cons (Rope.lenBytes_append _ _).symm ?_ (.prepend _ ?_)
  · change Rope.lenBytes (p ++ joinLines us) +
      Rope.lenBytes (x.text ++ bodyText block) = _
    rw [Rope.lenBytes_append x.text, ← Nat.add_assoc, ← hoffset]
    rfl
  · have hlen := lenBytes_eq_body block
    have hbase : Rope.lenBytes (p ++ joinLines (us ++ x :: block)) =
        Rope.lenBytes (p ++ joinLines (us ++ [x])) +
          Rope.lenBytes (bodyText block) +
          Rope.lenBytes (lastBreak block) := by
      simp only [joinLines_append, joinLines_cons, joinLines_nil,
        Rope.lenBytes_append, Rope.lenBytes_nil, hlen]
      omega
    rw [hbase] at htail
    exact htail

/-- A run that moves up, and what is done behind it. -/
theorem splices_raised {r : Run Line} (hp : Rope.LineStart p)
    (hrope : rope = p ++ joinLines (r.before ++ (r.block ++ more)))
    (h : FormedLines (r.before ++ (r.block ++ more))) (hne : r.block ≠ [])
    (hfirst : p ≠ [] → r.before ≠ [])
    (htail : Splices Char.utf8Size
      (Rope.lenBytes (p ++ joinLines (r.before ++ r.block))) rs
      (joinLines more) ys) :
    Splices Char.utf8Size (Rope.lenBytes p)
      (moves rope .up [blockAt (Rope.lenBytes (p ++ joinLines r.before))
        r.block more] ++ rs)
      (joinLines (r.before ++ (r.block ++ more)))
      (segmentText (raisedSegments r) ++ ys) := by
  obtain ⟨before, block⟩ := r
  simp only at hrope h hne hfirst htail ⊢
  rcases List.eq_nil_or_concat' before with rfl | ⟨us, x, rfl⟩
  · -- The run starts the text.
    have hempty : p = [] := by
      by_contra hp
      exact hfirst hp rfl
    have hstay : ¬Movable rope .up (blockAt (Rope.lenBytes
        (p ++ joinLines [])) block more) = true := by
      rw [movable_up_iff, hempty]
      simp [blockAt]
    have hsegs : segmentText (raisedSegments ⟨[], block⟩) = joinLines block :=
      segmentText_kept block
    rw [hsegs]
    exact splices_unmoved hstay block htail
  · have hsegs : raisedSegments ⟨us ++ [x], block⟩ =
        [kept us, raisedPair block x] := by
      rw [raisedSegments]
      simp
    rw [List.append_assoc, List.singleton_append] at hrope h htail ⊢
    rw [hsegs]
    exact splices_raised_line hp hrope h hne htail

/-- A run in front of the line `y`. -/
theorem splices_lowered_line {block zs : List Line} {y : Line}
    (hp : Rope.LineStart p)
    (hrope : rope = p ++ joinLines (block ++ y :: (zs ++ more)))
    (h : FormedLines (block ++ y :: (zs ++ more))) (hne : block ≠ [])
    (hy : y.text ≠ [])
    (htail : Splices Char.utf8Size
      (Rope.lenBytes (p ++ joinLines (block ++ y :: zs))) rs
      (joinLines more) ys) :
    Splices Char.utf8Size (Rope.lenBytes p)
      (moves rope .down
        [blockAt (Rope.lenBytes p) block (y :: (zs ++ more))] ++ rs)
      (joinLines (block ++ y :: (zs ++ more)))
      (segmentText [loweredPair block y, kept zs] ++ ys) := by
  have hzero : Rope.lenBytes y.text = 0 ↔ y.text = [] :=
    span_eq_zero_iff Rope.utf8Size_pos
  have hpos := mt hzero.mp hy
  have hmove : Movable rope .down
      (blockAt (Rope.lenBytes p) block (y :: (zs ++ more))) = true := by
    rw [movable_down_iff, hrope]
    simp only [blockAt, List.isEmpty_cons, Bool.not_false,
      joinLines_append, joinLines_cons, Rope.lenBytes_append, true_and]
    omega
  have hedit := movedEdit_down_eq hp hrope h hne
  have hsegs : segmentText [loweredPair block y, kept zs] ++ ys =
      [] ++ (y.content ++ lastBreak block ++ bodyText block) ++
        (y.terminator ++ joinLines zs ++ ys) := by
    simp [segmentText, kept, loweredPair]
  have htext : joinLines (block ++ y :: (zs ++ more)) =
      [] ++ (joinLines block ++ y.content) ++
        (y.terminator ++ joinLines zs ++ joinLines more) := by
    simp [Line.text]
  rw [moves_of_movable hmove, hedit, hsegs, htext, List.singleton_append]
  refine .cons rfl ?_ (.prepend _ ?_)
  · change Rope.lenBytes p + Rope.lenBytes (joinLines block ++ y.content) = _
    rw [Rope.lenBytes_append, ← Nat.add_assoc]
    rfl
  · have hbase : Rope.lenBytes (p ++ joinLines (block ++ y :: zs)) =
        Rope.lenBytes p + Rope.lenBytes (joinLines block) +
          Rope.lenBytes y.content +
          Rope.lenBytes (y.terminator ++ joinLines zs) := by
      simp only [joinLines_append, joinLines_cons, Line.text,
        Rope.lenBytes_append]
      omega
    rw [hbase] at htail
    exact htail

/-- A run that moves down, and what is done behind the lines `ls`. -/
theorem splices_lowered {block ls : List Line} (hp : Rope.LineStart p)
    (hrope : rope = p ++ joinLines (block ++ (ls ++ more)))
    (h : FormedLines (block ++ (ls ++ more))) (hne : block ≠ [])
    (hls : ls = [] → more = [])
    (htail : Splices Char.utf8Size
      (Rope.lenBytes (p ++ joinLines (block ++ ls))) rs
      (joinLines more) ys) :
    Splices Char.utf8Size (Rope.lenBytes p)
      (moves rope .down [blockAt (Rope.lenBytes p) block (ls ++ more)] ++ rs)
      (joinLines (block ++ (ls ++ more)))
      (segmentText (lowerSegments block ls) ++ ys) := by
  cases ls with
  | nil =>
      have hstay : ¬Movable rope .down
          (blockAt (Rope.lenBytes p) block ([] ++ more)) = true := by
        rw [movable_down_iff, hls rfl]
        simp [blockAt]
      rw [List.append_nil] at htail
      rw [lowerSegments, segmentText_kept]
      exact splices_unmoved hstay block htail
  | cons y zs =>
      by_cases hy : y.text = []
      · -- Only the empty line behind a final line break follows.
        have hbehind : FormedLines (y :: (zs ++ more)) :=
          h.of_append (by simp)
        have hterm : y.terminator = [] := (List.append_eq_nil_iff.mp hy).2
        have hnone := hbehind.terminator_iff.mp hterm
        have hstay : ¬Movable rope .down
            (blockAt (Rope.lenBytes p) block (y :: zs ++ more)) = true := by
          rw [movable_down_iff, hrope, List.cons_append, hnone]
          simp [blockAt, hy]
        have hsegs : segmentText (lowerSegments block (y :: zs)) =
            joinLines (block ++ y :: zs) := by
          rw [lowerSegments, if_pos hy]
          simp [segmentText, kept]
        rw [hsegs, ← List.append_assoc]
        exact splices_unmoved hstay _ htail
      · rw [lowerSegments, if_neg hy]
        exact splices_lowered_line hp hrope h hne hy htail

end Splices

section Runs

variable {rope p : Rope} {rs : List (Run Line)} {rest : List Line}

theorem blockRanges_cons (o : ℕ) {r : Run Line} (rest : List Line)
    (hblock : ∀ s ∈ r :: rs, s.block ≠ []) :
    blockRanges o (r :: rs) rest =
      blockAt (o + Rope.lenBytes (joinLines r.before)) r.block
          (runsToList rs ++ rest) ::
        blockRanges (o + Rope.lenBytes (joinLines (r.before ++ r.block)))
          rs rest := by
  rw [blockRanges, blockAt, isEmpty_behind hblock, joinLines_append,
    Rope.lenBytes_append, Nat.add_assoc]

/-- The runs of a text that move up. -/
theorem splices_raisedRuns (hp : rs ≠ [] → Rope.LineStart p)
    (hrope : rope = p ++ joinLines (runsToList rs ++ rest))
    (h : rs ≠ [] → FormedLines (runsToList rs ++ rest))
    (hblock : ∀ r ∈ rs, r.block ≠ [])
    (hfirst : p ≠ [] → ∀ r ∈ rs.head?, r.before ≠ [])
    (hlater : ∀ r ∈ rs.tail, r.before ≠ []) :
    Splices Char.utf8Size (Rope.lenBytes p)
      (moves rope .up (blockRanges (Rope.lenBytes p) rs rest))
      (joinLines (runsToList rs ++ rest))
      (segmentText (rs.flatMap raisedSegments ++ [kept rest])) := by
  induction rs generalizing p with
  | nil =>
      rw [List.flatMap_nil, List.nil_append, segmentText_kept]
      exact .nil _ _
  | cons r rs ih =>
      have hformed := h (by simp)
      have hranges := blockRanges_cons (Rope.lenBytes p) rest hblock
      have hbehind := formedLines_behind
        (fun s hs => hblock s (List.mem_cons_of_mem _ hs)) hformed
      rw [List.forall_mem_cons] at hblock
      have hcut : runsToList (r :: rs) ++ rest =
          r.before ++ (r.block ++ (runsToList rs ++ rest)) := by
        simp [runsToList_cons]
      rw [hcut] at hrope hformed ⊢
      have hnext : rope = p ++ joinLines (r.before ++ r.block) ++
          joinLines (runsToList rs ++ rest) := by
        rw [hrope]
        simp
      have hstart : rs ≠ [] →
          Rope.LineStart (p ++ joinLines (r.before ++ r.block)) := by
        intro hne
        rw [← List.append_assoc] at hformed
        exact lineStart_joinLines (hp (by simp)) hformed (hbehind hne).ne_nil
      have hrest := ih hstart hnext hbehind hblock.2
        (fun _ s hs => hlater s (List.mem_of_mem_head? hs))
        (fun s hs => hlater s (List.mem_of_mem_tail hs))
      have hsplices := splices_raised (hp (by simp)) hrope hformed hblock.1
        (fun hne => hfirst hne r rfl) hrest
      rw [Rope.lenBytes_append, Rope.lenBytes_append] at hsplices
      rw [hranges, moves_cons, List.flatMap_cons, List.append_assoc,
        segmentText_append]
      exact hsplices

/-- A run that moves down, and the runs behind it. -/
theorem splices_loweredRuns {block : List Line} (hp : Rope.LineStart p)
    (hrope : rope = p ++ joinLines (block ++ (runsToList rs ++ rest)))
    (h : FormedLines (block ++ (runsToList rs ++ rest))) (hne : block ≠ [])
    (hblock : ∀ r ∈ rs, r.block ≠ []) (hbefore : ∀ r ∈ rs, r.before ≠ []) :
    Splices Char.utf8Size (Rope.lenBytes p)
      (moves rope .down
        (blockAt (Rope.lenBytes p) block (runsToList rs ++ rest) ::
          blockRanges (Rope.lenBytes (p ++ joinLines block)) rs rest))
      (joinLines (block ++ (runsToList rs ++ rest)))
      (segmentText (loweredSegments block rs rest)) := by
  induction rs generalizing p block with
  | nil =>
      have hcut : runsToList ([] : List (Run Line)) ++ rest = rest ++ [] := by
        simp [runsToList]
      rw [hcut] at hrope h ⊢
      have hsplices := splices_lowered hp hrope h hne (fun _ => rfl)
        (.nil _ _)
      simp only [joinLines_nil, List.append_nil] at hsplices ⊢
      exact hsplices
  | cons r rs ih =>
      have hranges := blockRanges_cons
        (Rope.lenBytes (p ++ joinLines block)) rest hblock
      rw [List.forall_mem_cons] at hblock hbefore
      have hcut : runsToList (r :: rs) ++ rest =
          r.before ++ (r.block ++ (runsToList rs ++ rest)) := by
        simp [runsToList_cons]
      rw [hcut] at hrope h ⊢
      have hnext : rope = p ++ joinLines (block ++ r.before) ++
          joinLines (r.block ++ (runsToList rs ++ rest)) := by
        rw [hrope]
        simp
      have hformed := h
      rw [← List.append_assoc] at hformed
      have hmore : r.block ++ (runsToList rs ++ rest) ≠ [] := by
        simp [hblock.1]
      have hrest := ih (lineStart_joinLines hp hformed hmore) hnext
        (hformed.of_append hmore) hblock.1 hblock.2 hbefore.2
      have hsplices := splices_lowered hp hrope h hne
        (fun hnil => absurd hnil hbefore.1) hrest
      rw [loweredSegments, segmentText_append, moves_cons, hranges]
      simp only [joinLines_append, Rope.lenBytes_append,
        Nat.add_assoc] at hsplices ⊢
      exact hsplices

/-- The edits of a move leave the segments of its runs. -/
theorem splices_runs (direction : LineDirection) {runs : Runs Line}
    (hruns : runs.Separated)
    (hrope : rope = joinLines (runsToList runs.runs ++ runs.rest))
    (h : FormedLines (runsToList runs.runs ++ runs.rest)) :
    Splices Char.utf8Size 0
      (moves rope direction (blockRanges 0 runs.runs runs.rest)) rope
      (segmentText (movedSegments runs direction)) := by
  obtain ⟨hblock, hlater⟩ := hruns
  have hstart : Rope.LineStart [] := .inl rfl
  have hsplices : Splices Char.utf8Size (Rope.lenBytes [])
      (moves rope direction (blockRanges 0 runs.runs runs.rest))
      (joinLines (runsToList runs.runs ++ runs.rest))
      (segmentText (movedSegments runs direction)) := by
    cases direction with
    | up =>
        exact splices_raisedRuns (fun _ => hstart) hrope (fun _ => h) hblock
          (fun hne => absurd rfl hne) hlater
    | down =>
        obtain ⟨rs, rest⟩ := runs
        cases rs with
        | nil =>
            have htext : segmentText (movedSegments ⟨[], rest⟩ .down) =
                joinLines rest := segmentText_lowerSegments_nil rest
            rw [htext]
            exact .nil _ _
        | cons r rs =>
            have hranges := blockRanges_cons 0 rest hblock
            rw [List.forall_mem_cons] at hblock
            have hcut : runsToList (r :: rs) ++ rest =
                r.before ++ (r.block ++ (runsToList rs ++ rest)) := by
              simp [runsToList_cons]
            have htext : segmentText (movedSegments ⟨r :: rs, rest⟩ .down) =
                joinLines r.before ++
                  segmentText (loweredSegments r.block rs rest) := by
              rw [movedSegments, loweredSegments, segmentText_append,
                segmentText_lowerSegments_nil]
            simp only [hcut] at hrope h ⊢
            have hmore : r.block ++ (runsToList rs ++ rest) ≠ [] := by
              simp [hblock.1]
            have hbehind := lineStart_joinLines hstart h hmore
            rw [joinLines_append] at hrope
            have hlowered := splices_loweredRuns hbehind hrope
              (h.of_append hmore) hblock.1 hblock.2 hlater
            rw [htext, hranges, joinLines_append r.before (r.block ++ _)]
            refine .prepend _ ?_
            have hbase : Rope.lenBytes [] +
                  span Char.utf8Size (joinLines r.before) =
                Rope.lenBytes (joinLines r.before) := Nat.zero_add _
            rw [hbase]
            simp only [List.nil_append, joinLines_append,
              Rope.lenBytes_append, Nat.zero_add] at hlowered ⊢
            exact hlowered
  rwa [← hrope] at hsplices

end Runs

/-! ## The operation -/

namespace Buffer

/-- Moving lines succeeds, and leaves the segments of the runs. -/
theorem moveLines_spec (b : Buffer) (revision : ℕ)
    {selections : List Selection} (h : ∀ s ∈ selections, s.Valid b.rope)
    (direction : LineDirection) :
    (∃ outcome, (b.moveLines revision selections direction).2 =
        .ok outcome) ∧
      (b.moveLines revision selections direction).1.rope =
        segmentText (movedSegments (touchedRuns b.rope selections)
          direction) := by
  have hvalid := normalize_valid h
  obtain ⟨hblocks, -⟩ := lineBlocks_spec hvalid
  have hsegments := splices_runs direction
    (touchedRuns_separated b.rope selections)
    (joinLines_touchedRuns b.rope selections)
    (touchedRuns_formed b.rope selections)
  rw [← lineBlocks_eq_blockRanges h, Rope.lineBlocks,
    ← normalize_normalize, ← Rope.lineBlocks] at hsegments
  have hunique := simultaneous_of_splices Rope.utf8Size_pos hsegments
  rw [moveLines]
  simp only [mapM_ok fun B hB => moveBlock_eq (hblocks.each B hB) direction,
    filterMap_movers, List.map_map]
  split
  case isTrue hnone =>
    refine ⟨⟨_, rfl⟩, ?_⟩
    have hmoves : moves b.rope direction
        (b.rope.lineBlocks (normalize selections)) = [] := by
      rw [moves, List.map_map]
      simpa using hnone
    rw [hmoves, simultaneous_nil] at hunique
    exact hunique
  case isFalse =>
    obtain ⟨⟨id, hid⟩, hsplices⟩ := applyWithSelections_spec
      (movedEdits_inOrder hblocks direction) revision (normalize selections)
      ((normalize selections).map (movedSelection b.rope direction
        (b.rope.lineBlocks (normalize selections))))
    refine ⟨⟨_, hid⟩, ?_⟩
    have hresult := simultaneous_of_splices Rope.utf8Size_pos hsplices
    exact hresult.symm.trans hunique

/-- The contents of the touched lines move, and the terminators stay, exactly
when every run that moves exchanges cleanly with its neighbour. -/
theorem moveLines_movesLines_iff (b : Buffer) (revision : ℕ)
    {selections : List Selection} (h : ∀ s ∈ selections, s.Valid b.rope)
    (direction : LineDirection) :
    MovesLines b.rope selections direction
        (b.moveLines revision selections direction).1.rope ↔
      MovesClean (touchedRuns b.rope selections) direction := by
  rw [(b.moveLines_spec revision h direction).2]
  exact movesLines_iff b.rope selections direction

/-- Two lines that end alike move down. -/
theorem moveLines_movesLines_iff_two :
    MovesLines "a\r\nb\r\nc".toList [⟨0, 4⟩] .down
      "c\r\na\r\nb".toList := by
  have hvalid : ∀ s ∈ [(⟨0, 4⟩ : Selection)],
      s.Valid "a\r\nb\r\nc".toList := by
    rw [List.forall_mem_singleton]
    exact ⟨by decide, by decide, by decide⟩
  have hclean : MovesClean (touchedRuns "a\r\nb\r\nc".toList [⟨0, 4⟩])
      .down := by
    have hruns : touchedRuns "a\r\nb\r\nc".toList [⟨0, 4⟩] =
        ⟨[⟨[], [⟨['a'], ['\r', '\n']⟩, ⟨['b'], ['\r', '\n']⟩]⟩],
          [⟨['c'], []⟩]⟩ := by
      decide
    rw [hruns]
    refine forall_splits_cons.mpr ⟨fun y hy _ => ?_, by simp⟩
    obtain rfl : ⟨['c'], []⟩ = y := Option.mem_some_iff.mp hy
    exact ⟨by decide, by decide, by simp⟩
  exact (moveLines_movesLines_iff (Buffer.new 0 "a\r\nb\r\nc".toList) 1
    hvalid .down).mpr hclean

/-- The line break inside a moved run moves with it. -/
theorem moveLines_moves_break :
    ¬∀ (b : Buffer) (revision : ℕ) (selections : List Selection),
      (∀ s ∈ selections, s.Valid b.rope) → ∀ direction,
        MovesLines b.rope selections direction
          (b.moveLines revision selections direction).1.rope := by
  intro hall
  have hvalid : ∀ s ∈ [(⟨0, 4⟩ : Selection)],
      s.Valid (Buffer.new 0 "a\r\nb\nc".toList).rope := by
    rw [List.forall_mem_singleton]
    exact ⟨by decide, by decide, by decide⟩
  have hmoves := hall (Buffer.new 0 "a\r\nb\nc".toList) 1 [⟨0, 4⟩] hvalid .down
  exact absurd hmoves.terminators (by decide)

end Buffer

end Tempr.Editor
