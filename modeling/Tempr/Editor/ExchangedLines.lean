import Tempr.Editor.TouchedLines

/-!
# Exchanging runs of lines with their neighbours

Moving lines is meant to exchange the contents of lines and to leave the
terminators where they are.  What the code writes for a run of lines moves the
terminators inside the run along with it, and takes every carriage return and
line feed at the end of a line for its terminator.  This module says for which
runs the two agree.
-/

namespace Tempr.Editor

open Tempr.Support

/-! ## The exchange -/

/-- A run exchanged with the line in front of it. -/
def raised (r : Run Line) : List Line :=
  r.before.dropLast ++ r.block ++ r.before.getLast?.toList

/-- A run exchanged with the first of the lines behind it.  The empty line
behind a final line break is no neighbour. -/
def lowered (block : List Line) : List Line → List Line
  | [] => block
  | y :: ys => if y.text = [] then block ++ y :: ys else y :: (block ++ ys)

/-- The run `block` and the runs behind it, each exchanged with the line behind
it. -/
def loweredLines : List Line → List (Run Line) → List Line → List Line
  | block, [], rest => lowered block rest
  | block, r :: rs, rest =>
      lowered block r.before ++ loweredLines r.block rs rest

/-- The lines of a text with every run exchanged with its neighbour. -/
def linesMoved (runs : Runs Line) : LineDirection → List Line
  | .up => runs.runs.flatMap raised ++ runs.rest
  | .down => loweredLines [] runs.runs runs.rest

/-- The contents of the touched lines moved, and the terminators stayed. -/
structure MovesLines (rope : Rope) (selections : List Selection)
    (direction : LineDirection) (rope' : Rope) : Prop where
  contents : rope'.lines.map Line.content =
    (linesMoved (touchedRuns rope selections) direction).map Line.content
  terminators : rope'.lines.map Line.terminator =
    rope.lines.map Line.terminator

/-! ## Runs that exchange cleanly -/

/-- The content does not end in what could be taken for its terminator. -/
def Line.EndsClean (l : Line) : Prop := l.content.getLast? ≠ some '\r'

instance (l : Line) : Decidable l.EndsClean :=
  inferInstanceAs (Decidable (l.content.getLast? ≠ some '\r'))

/-- What it takes to exchange a run with the line `x` in front of it. -/
structure RaisesClean (x : Line) (block : List Line) : Prop where
  neighbour : x.EndsClean
  terminators : ∀ l ∈ block.dropLast, l.terminator = x.terminator
  last : x.terminator = ['\n'] → ∀ l ∈ block.getLast?, l.EndsClean

/-- What it takes to exchange a run with the line `y` behind it. -/
structure LowersClean (block : List Line) (y : Line) : Prop where
  terminators : ∀ l ∈ block, ∀ m ∈ block, l.terminator = m.terminator
  neighbour : ∀ l ∈ block, l.terminator = ['\n'] → y.EndsClean
  last : y.terminator = ['\n'] → ∀ l ∈ block.getLast?, l.EndsClean

/-- Every run that moves exchanges cleanly. -/
def MovesClean (runs : Runs Line) : LineDirection → Prop
  | .up => ∀ r ∈ runs.runs, ∀ x ∈ r.before.getLast?, RaisesClean x r.block
  | .down => ∀ front r back, runs.runs = front ++ r :: back →
      ∀ y ∈ (runsToList back ++ runs.rest).head?, y.text ≠ [] →
        LowersClean r.block y

/-! ## Lines with other terminators -/

/-- The contents of `block` and `x` with the terminators that start with `t`
and go on with those of `block`. -/
def shiftedUp (t : List Char) : List Line → Line → List Line
  | [], x => [⟨x.content, t⟩]
  | b :: bs, x => ⟨b.content, t⟩ :: shiftedUp b.terminator bs x

/-- The content `c` and those of a block with the terminators of the block
followed by `t`. -/
def shiftedDown (c : List Char) : List Line → List Char → List Line
  | [], t => [⟨c, t⟩]
  | b :: bs, t => ⟨c, b.terminator⟩ :: shiftedDown b.content bs t

/-- The text of a block without its last terminator. -/
def bodyText : List Line → Rope
  | [] => []
  | [l] => l.content
  | l :: m :: ls => l.text ++ bodyText (m :: ls)

/-- The last terminator of a block. -/
def lastBreak : List Line → List Char
  | [] => []
  | [l] => l.terminator
  | _ :: m :: ls => lastBreak (m :: ls)

theorem joinLines_eq_body (ls : List Line) :
    joinLines ls = bodyText ls ++ lastBreak ls := by
  induction ls with
  | nil => rfl
  | cons l ls ih =>
      cases ls with
      | nil => simp [bodyText, lastBreak, Line.text]
      | cons m ls =>
          rw [joinLines_cons, ih, bodyText, lastBreak, List.append_assoc]

theorem shiftedUp_maps (t : List Char) (block : List Line) (x : Line) :
    (shiftedUp t block x).map Line.content =
        block.map Line.content ++ [x.content] ∧
      (shiftedUp t block x).map Line.terminator =
        t :: block.map Line.terminator := by
  induction block generalizing t with
  | nil => exact ⟨rfl, rfl⟩
  | cons b bs ih =>
      obtain ⟨hcontent, hterm⟩ := ih b.terminator
      simp only [shiftedUp, List.map_cons, hcontent, hterm, List.cons_append,
        and_self]

theorem shiftedDown_maps (c : List Char) (block : List Line) (t : List Char) :
    (shiftedDown c block t).map Line.content =
        c :: block.map Line.content ∧
      (shiftedDown c block t).map Line.terminator =
        block.map Line.terminator ++ [t] := by
  induction block generalizing c with
  | nil => exact ⟨rfl, rfl⟩
  | cons b bs ih =>
      obtain ⟨hcontent, hterm⟩ := ih b.content
      simp only [shiftedDown, List.map_cons, hcontent, hterm,
        List.cons_append, and_self]

/-- Texts that go on behind two line breaks agree only if the breaks do. -/
theorem append_eq_append_iff_of_break {j k : Rope} (hj : IsBreak j)
    (hk : IsBreak k) (x y : Rope) :
    j ++ x = k ++ y ↔ j = k ∧ x = y := by
  constructor
  · intro h
    rcases hj with rfl | rfl
    · rcases hk with rfl | rfl
      · exact ⟨rfl, List.append_cancel_left h⟩
      · simp at h
    · rcases hk with rfl | rfl
      · simp at h
      · exact ⟨rfl, List.append_cancel_left h⟩
  · rintro ⟨rfl, rfl⟩
    rfl

/-! ## One run -/

/-- What a run and its neighbour are replaced by, beside what they should
be. -/
structure Segment where
  text : Rope
  lines : List Line

/-- The text is that of the lines, and can only be cut into these lines. -/
def Segment.Matches (s : Segment) : Prop :=
  s.text = joinLines s.lines ∧ ∀ l ∈ s.lines, l.Formed

theorem Line.formed_iff_of_break {c k : List Char} (hc : '\n' ∉ c)
    (hk : IsBreak k) :
    Line.Formed ⟨c, k⟩ ↔ (k = ['\n'] → c.getLast? ≠ some '\r') :=
  ⟨Line.Formed.feed, fun h => ⟨hc, .inr hk, h⟩⟩

/-- Lines of which only the last may lack a terminator. -/
def BlockLines (block : List Line) : Prop :=
  (∀ l ∈ block, l.Formed) ∧ ∀ l ∈ block.dropLast, IsBreak l.terminator

theorem BlockLines.tail {b m : Line} {ls : List Line}
    (h : BlockLines (b :: m :: ls)) :
    IsBreak b.terminator ∧ BlockLines (m :: ls) := by
  obtain ⟨hformed, hbreak⟩ := h
  rw [List.forall_mem_cons] at hformed
  rw [List.dropLast_cons_cons, List.forall_mem_cons] at hbreak
  exact ⟨hbreak.1, hformed.2, hbreak.2⟩

section Raised

variable {t : List Char} {block : List Line} {x : Line}

/-- The text written for a raised run: `w` stands between the block and its
last terminator. -/
theorem raised_text_iff (hne : block ≠ []) (ht : IsBreak t)
    (hblock : BlockLines block) (w : Rope) :
    bodyText block ++ (w ++ lastBreak block) =
        joinLines (shiftedUp t block x) ↔
      (∀ l ∈ block.dropLast, l.terminator = t) ∧ w = t ++ x.content := by
  induction block generalizing t with
  | nil => exact absurd rfl hne
  | cons b ls ih =>
      cases ls with
      | nil =>
          have hright : joinLines (shiftedUp t [b] x) =
              b.content ++ ((t ++ x.content) ++ b.terminator) := by
            simp [shiftedUp, Line.text]
          rw [hright, bodyText, lastBreak, List.append_cancel_left_eq,
            List.append_cancel_right_eq]
          simp
      | cons m ls =>
          obtain ⟨hb, htail⟩ := hblock.tail
          have hleft : bodyText (b :: m :: ls) ++
                (w ++ lastBreak (b :: m :: ls)) =
              b.content ++ (b.terminator ++
                (bodyText (m :: ls) ++ (w ++ lastBreak (m :: ls)))) := by
            simp [bodyText, lastBreak, Line.text]
          have hright : joinLines (shiftedUp t (b :: m :: ls) x) =
              b.content ++
                (t ++ joinLines (shiftedUp b.terminator (m :: ls) x)) := by
            rw [shiftedUp, joinLines_cons, Line.text, List.append_assoc]
          rw [hleft, hright, List.append_cancel_left_eq,
            append_eq_append_iff_of_break hb ht,
            ih (by simp) hb htail, List.dropLast_cons_cons,
            List.forall_mem_cons]
          constructor
          · rintro ⟨rfl, hall, hw⟩
            exact ⟨⟨rfl, hall⟩, hw⟩
          · rintro ⟨⟨rfl, hall⟩, hw⟩
            exact ⟨rfl, hall, hw⟩

theorem raised_formed_iff (hne : block ≠ []) (ht : IsBreak t)
    (hblock : BlockLines block) (hx : '\n' ∉ x.content)
    (hclean : x.EndsClean)
    (hall : ∀ l ∈ block.dropLast, l.terminator = t) :
    (∀ l ∈ shiftedUp t block x, l.Formed) ↔
      (t = ['\n'] → ∀ l ∈ block.getLast?, l.EndsClean) := by
  induction block with
  | nil => exact absurd rfl hne
  | cons b ls ih =>
      have hb := hblock.1 b (by simp)
      cases ls with
      | nil =>
          have hlast : Line.Formed ⟨x.content, b.terminator⟩ :=
            ⟨hx, hb.terminator, fun _ => hclean⟩
          simp only [shiftedUp, List.forall_mem_cons, hlast,
            Line.formed_iff_of_break hb.content ht, List.getLast?_singleton,
            Option.mem_some_iff, forall_eq', List.not_mem_nil,
            false_implies, implies_true, and_true]
          rfl
      | cons m ls =>
          rw [List.dropLast_cons_cons, List.forall_mem_cons] at hall
          have hsame : (⟨b.content, t⟩ : Line) = b := by
            rw [← hall.1]
          rw [shiftedUp, hall.1, hsame, List.forall_mem_cons,
            ih (by simp) hblock.tail.2 hall.2, List.getLast?_cons_cons]
          exact and_iff_right hb

theorem trimEndBreaks_break {k : Rope} (hk : IsBreak k) (c : Rope) :
    trimEndBreaks (c ++ k) = trimEndBreaks c := by
  rcases hk with rfl | rfl
  · exact List.rdropWhile_concat_pos _ c '\n' rfl
  · have hcut : c ++ ['\r', '\n'] = c ++ ['\r'] ++ ['\n'] := by simp
    rw [hcut, trimEndBreaks, List.rdropWhile_concat_pos _ _ '\n' rfl,
      List.rdropWhile_concat_pos _ c '\r' rfl]
    rfl

theorem trimEndBreaks_eq_self_iff {c : Rope} (hc : '\n' ∉ c) :
    trimEndBreaks c = c ↔ c.getLast? ≠ some '\r' := by
  rw [trimEndBreaks, List.rdropWhile_eq_self_iff]
  constructor
  · intro h hlast
    obtain ⟨d, rfl⟩ := List.getLast?_eq_some_iff.mp hlast
    exact h (by simp) (by simp)
  · intro h hne
    simp only [Bool.or_eq_true, decide_eq_true_eq, not_or]
    refine ⟨fun hr => h (by rw [List.getLast?_eq_some_getLast hne, hr]), ?_⟩
    intro hn
    exact hc (hn ▸ List.getLast_mem hne)

/-- The line break in front of a raised run, and the content behind it. -/
theorem trimmed_iff (hx : x.Formed) (hbreak : IsBreak x.terminator) :
    x.text.drop (trimEndBreaks x.text).length ++ trimEndBreaks x.text =
        x.terminator ++ x.content ↔ x.EndsClean := by
  have htrim : trimEndBreaks x.text = trimEndBreaks x.content :=
    trimEndBreaks_break hbreak x.content
  rw [htrim, Line.EndsClean, ← trimEndBreaks_eq_self_iff hx.content]
  constructor
  · intro h
    -- The part `w` cut off the content would hold its first line feed.
    obtain ⟨w, hw⟩ : trimEndBreaks x.content <+: x.content :=
      List.rdropWhile_prefix _ _
    have hdrop : x.text.drop (trimEndBreaks x.content).length =
        w ++ x.terminator := by
      have htext : x.text = trimEndBreaks x.content ++ (w ++ x.terminator) := by
        rw [Line.text, ← List.append_assoc, hw]
      rw [htext, List.drop_left]
    have hfeed := hx.content
    rw [← hw] at hfeed
    simp only [List.mem_append, not_or] at hfeed
    rw [hdrop, List.append_assoc] at h
    cases w with
    | nil => simpa using hw
    | cons c w =>
        exfalso
        simp only [List.mem_cons, not_or] at hfeed
        rcases hbreak with hk | hk
        · rw [hk] at h
          exact hfeed.2.1 (List.cons.inj h).1.symm
        · rw [hk] at h
          have htail := (List.cons.inj h).2
          cases w with
          | nil => simp at htail
          | cons d w =>
              simp only [List.mem_cons, not_or] at hfeed
              exact hfeed.2.2.1 (List.cons.inj htail).1.symm
  · intro h
    rw [h, Line.text, List.drop_left]

/-- The segment of a run and the line `x` in front of it. -/
def raisedPair (block : List Line) (x : Line) : Segment where
  text := bodyText block ++ (x.text.drop (trimEndBreaks x.text).length ++
    trimEndBreaks x.text ++ lastBreak block)
  lines := shiftedUp x.terminator block x

theorem raisedPair_matches_iff (hne : block ≠ []) (hblock : BlockLines block)
    (hx : x.Formed) (hbreak : IsBreak x.terminator) :
    (raisedPair block x).Matches ↔ RaisesClean x block := by
  have htext := raised_text_iff (x := x) hne hbreak hblock
    (x.text.drop (trimEndBreaks x.text).length ++ trimEndBreaks x.text)
  rw [trimmed_iff hx hbreak] at htext
  rw [Segment.Matches, raisedPair, htext]
  constructor
  · rintro ⟨⟨hall, hclean⟩, hformed⟩
    exact ⟨hclean, hall, (raised_formed_iff hne hbreak hblock hx.content
      hclean hall).mp hformed⟩
  · rintro ⟨hclean, hall, hlast⟩
    exact ⟨⟨hall, hclean⟩, (raised_formed_iff hne hbreak hblock hx.content
      hclean hall).mpr hlast⟩

end Raised

section Lowered

variable {block : List Line} {y : Line}

theorem lastBreak_isBreak (hne : block ≠ [])
    (h : ∀ l ∈ block, IsBreak l.terminator) : IsBreak (lastBreak block) := by
  induction block with
  | nil => exact absurd rfl hne
  | cons b ls ih =>
      rw [List.forall_mem_cons] at h
      cases ls with
      | nil => exact h.1
      | cons m ls => exact ih (by simp) h.2

theorem lastBreak_mem (hne : block ≠ []) :
    ∃ l ∈ block, lastBreak block = l.terminator := by
  induction block with
  | nil => exact absurd rfl hne
  | cons b ls ih =>
      cases ls with
      | nil => exact ⟨b, by simp, rfl⟩
      | cons m ls =>
          obtain ⟨l, hl, heq⟩ := ih (by simp)
          exact ⟨l, List.mem_cons_of_mem _ hl, heq⟩

/-- The texts of a block and of its contents behind later terminators. -/
theorem lowered_text_iff {b : Line} {ls : List Line}
    (h : ∀ l ∈ b :: ls, IsBreak l.terminator) (t : List Char) :
    bodyText (b :: ls) ++ t = joinLines (shiftedDown b.content ls t) ↔
      ∀ l ∈ ls, l.terminator = b.terminator := by
  induction ls generalizing b with
  | nil => simp [bodyText, shiftedDown, Line.text]
  | cons m ls ih =>
      have hbreaks := h
      rw [List.forall_mem_cons, List.forall_mem_cons] at hbreaks
      have hrest := ih fun l hl => h l (List.mem_cons_of_mem _ hl)
      have hleft : bodyText (b :: m :: ls) ++ t =
          b.content ++ (b.terminator ++ (bodyText (m :: ls) ++ t)) := by
        simp [bodyText, Line.text]
      have hright : joinLines (shiftedDown b.content (m :: ls) t) =
          b.content ++ (m.terminator ++
            joinLines (shiftedDown m.content ls t)) := by
        rw [shiftedDown, joinLines_cons, Line.text, List.append_assoc]
      rw [hleft, hright, List.append_cancel_left_eq,
        append_eq_append_iff_of_break hbreaks.1 hbreaks.2.1, hrest,
        List.forall_mem_cons]
      constructor
      · rintro ⟨hsame, hall⟩
        exact ⟨hsame.symm, fun l hl => (hall l hl).trans hsame.symm⟩
      · rintro ⟨hsame, hall⟩
        exact ⟨hsame.symm, fun l hl => (hall l hl).trans hsame.symm⟩

theorem lowered_formed_iff {b : Line} {ls : List Line} {t : List Char}
    (h : ∀ l ∈ b :: ls, l.Formed) (ht : t = [] ∨ IsBreak t)
    (hall : ∀ l ∈ ls, l.terminator = b.terminator) :
    (∀ l ∈ shiftedDown b.content ls t, l.Formed) ↔
      (t = ['\n'] → ∀ l ∈ (b :: ls).getLast?, l.EndsClean) := by
  induction ls generalizing b with
  | nil =>
      have hb := h b (by simp)
      simp only [shiftedDown, List.forall_mem_singleton,
        List.getLast?_singleton, Option.mem_some_iff, forall_eq']
      exact ⟨Line.Formed.feed, fun hclean => ⟨hb.content, ht, hclean⟩⟩
  | cons m ls ih =>
      rw [List.forall_mem_cons] at h hall
      have hsame : (⟨b.content, m.terminator⟩ : Line) = b := by
        rw [hall.1]
      rw [shiftedDown, hsame, List.forall_mem_cons,
        ih h.2 fun l hl => (hall.2 l hl).trans hall.1.symm,
        List.getLast?_cons_cons]
      exact and_iff_right h.1

/-- The segment of a run and the line `y` behind it. -/
def loweredPair (block : List Line) (y : Line) : Segment where
  text := y.content ++ (lastBreak block ++ (bodyText block ++ y.terminator))
  lines := shiftedDown y.content block y.terminator

theorem loweredPair_matches_iff (hne : block ≠ [])
    (hblock : ∀ l ∈ block, l.Formed)
    (hbreak : ∀ l ∈ block, IsBreak l.terminator) (hy : y.Formed) :
    (loweredPair block y).Matches ↔ LowersClean block y := by
  have hlast := lastBreak_isBreak hne hbreak
  obtain ⟨m, hm, hmlast⟩ := lastBreak_mem hne
  obtain ⟨b, ls, rfl⟩ := List.exists_cons_of_ne_nil hne
  have hb := hbreak b (by simp)
  have hright : joinLines (shiftedDown y.content (b :: ls) y.terminator) =
      y.content ++ (b.terminator ++
        joinLines (shiftedDown b.content ls y.terminator)) := by
    rw [shiftedDown, joinLines_cons, Line.text, List.append_assoc]
  have htext : (lastBreak (b :: ls) = b.terminator ∧
        ∀ l ∈ ls, l.terminator = b.terminator) ↔
      ∀ l ∈ b :: ls, ∀ l' ∈ b :: ls, l.terminator = l'.terminator := by
    constructor
    · rintro ⟨-, hall⟩
      have hevery : ∀ l ∈ b :: ls, l.terminator = b.terminator := by
        rw [List.forall_mem_cons]
        exact ⟨rfl, hall⟩
      exact fun l hl l' hl' => (hevery l hl).trans (hevery l' hl').symm
    · intro hall
      exact ⟨hmlast.trans (hall m hm b (by simp)),
        fun l hl => hall l (List.mem_cons_of_mem _ hl) b (by simp)⟩
  have hlines : (∀ l ∈ shiftedDown y.content (b :: ls) y.terminator,
        l.Formed) ↔
      (b.terminator = ['\n'] → y.EndsClean) ∧
        ∀ l ∈ shiftedDown b.content ls y.terminator, l.Formed := by
    rw [shiftedDown, List.forall_mem_cons,
      Line.formed_iff_of_break hy.content hb]
    rfl
  change y.content ++ (lastBreak (b :: ls) ++ (bodyText (b :: ls) ++
      y.terminator)) = joinLines (shiftedDown y.content (b :: ls)
        y.terminator) ∧ (∀ l ∈ shiftedDown y.content (b :: ls) y.terminator,
          l.Formed) ↔ _
  rw [hright, List.append_cancel_left_eq,
    append_eq_append_iff_of_break hlast hb,
    lowered_text_iff hbreak y.terminator, htext, hlines]
  constructor
  · rintro ⟨hall, hneighbour, hformed⟩
    have hsame := fun l hl => hall l (List.mem_cons_of_mem b hl) b (by simp)
    refine ⟨hall, fun l hl hfeed => ?_,
      (lowered_formed_iff hblock hy.terminator hsame).mp hformed⟩
    exact hneighbour ((hall b (by simp) l hl).trans hfeed)
  · rintro ⟨hall, hneighbour, hlast⟩
    have hsame := fun l hl => hall l (List.mem_cons_of_mem b hl) b (by simp)
    exact ⟨hall, hneighbour b (by simp),
      (lowered_formed_iff hblock hy.terminator hsame).mpr hlast⟩

end Lowered

/-! ## All runs -/

/-- Lines that no exchange reaches. -/
def kept (ls : List Line) : Segment := ⟨joinLines ls, ls⟩

def raisedSegments (r : Run Line) : List Segment :=
  match r.before.getLast? with
  | none => [kept r.block]
  | some x => [kept r.before.dropLast, raisedPair r.block x]

def lowerSegments (block : List Line) : List Line → List Segment
  | [] => [kept block]
  | y :: ys =>
      if y.text = [] then [kept block, kept (y :: ys)]
      else [loweredPair block y, kept ys]

def loweredSegments : List Line → List (Run Line) → List Line → List Segment
  | block, [], rest => lowerSegments block rest
  | block, r :: rs, rest =>
      lowerSegments block r.before ++ loweredSegments r.block rs rest

/-- What the code writes for a text, run by run. -/
def movedSegments (runs : Runs Line) : LineDirection → List Segment
  | .up => runs.runs.flatMap raisedSegments ++ [kept runs.rest]
  | .down => loweredSegments [] runs.runs runs.rest

/-- The lines that the segments should be. -/
def segmentLines (segs : List Segment) : List Line :=
  segs.flatMap Segment.lines

def segmentText (segs : List Segment) : Rope := segs.flatMap Segment.text

/-- The lines of segments are these with their contents and terminators. -/
structure Reads (segs : List Segment) (contents terminators : List Line) :
    Prop where
  contents : (segmentLines segs).map Line.content =
    contents.map Line.content
  terminators : (segmentLines segs).map Line.terminator =
    terminators.map Line.terminator
  length : ∀ s ∈ segs, s.text.length = (joinLines s.lines).length

theorem Reads.append {segs segs' : List Segment}
    {cs cs' ts ts' : List Line} (h : Reads segs cs ts)
    (h' : Reads segs' cs' ts') :
    Reads (segs ++ segs') (cs ++ cs') (ts ++ ts') := by
  have hlines : segmentLines (segs ++ segs') =
      segmentLines segs ++ segmentLines segs' := List.flatMap_append
  refine ⟨?_, ?_, ?_⟩
  · rw [hlines, List.map_append, h.contents, h'.contents, List.map_append]
  · rw [hlines, List.map_append, h.terminators, h'.terminators,
      List.map_append]
  · rw [List.forall_mem_append]
    exact ⟨h.length, h'.length⟩

theorem reads_kept (ls : List Line) : Reads [kept ls] ls ls := by
  have hlines : segmentLines [kept ls] = ls := List.append_nil ls
  refine ⟨by rw [hlines], by rw [hlines], ?_⟩
  rw [List.forall_mem_singleton]
  rfl

theorem length_joinLines (ls : List Line) :
    (joinLines ls).length = (ls.map Line.content).flatten.length +
      (ls.map Line.terminator).flatten.length := by
  induction ls with
  | nil => rfl
  | cons l ls ih =>
      rw [joinLines_cons, List.length_append, ih, Line.text]
      simp only [List.length_append, List.map_cons, List.flatten_cons]
      omega

theorem reads_raisedPair (block : List Line) (x : Line) :
    Reads [raisedPair block x] (block ++ [x]) (x :: block) := by
  obtain ⟨hcontent, hterm⟩ := shiftedUp_maps x.terminator block x
  have hlines : segmentLines [raisedPair block x] =
      shiftedUp x.terminator block x := List.append_nil _
  refine ⟨by rw [hlines, hcontent]; simp, by rw [hlines, hterm]; simp, ?_⟩
  rw [List.forall_mem_singleton]
  have hblock := congrArg List.length (joinLines_eq_body block)
  have hsum := length_joinLines block
  have htrim : (trimEndBreaks x.text).length ≤ x.text.length :=
    (List.rdropWhile_prefix _ x.text).length_le
  have hx : x.text.length = x.content.length + x.terminator.length :=
    List.length_append
  rw [raisedPair, length_joinLines, hcontent, hterm]
  simp only [List.length_append, List.flatten_append, List.flatten_cons,
    List.flatten_nil, List.length_nil, List.length_drop] at hblock ⊢
  omega

theorem reads_loweredPair (block : List Line) (y : Line) :
    Reads [loweredPair block y] (y :: block) (block ++ [y]) := by
  obtain ⟨hcontent, hterm⟩ := shiftedDown_maps y.content block y.terminator
  have hlines : segmentLines [loweredPair block y] =
      shiftedDown y.content block y.terminator := List.append_nil _
  refine ⟨by rw [hlines, hcontent]; simp, by rw [hlines, hterm]; simp, ?_⟩
  rw [List.forall_mem_singleton]
  have hblock := congrArg List.length (joinLines_eq_body block)
  have hsum := length_joinLines block
  rw [loweredPair, length_joinLines, hcontent, hterm]
  simp only [List.length_append, List.flatten_append, List.flatten_cons,
    List.flatten_nil, List.length_nil] at hblock ⊢
  omega

theorem reads_raisedSegments (r : Run Line) :
    Reads (raisedSegments r) (raised r) (r.before ++ r.block) := by
  rcases List.eq_nil_or_concat' r.before with hnil | ⟨us, x, hconcat⟩
  · have hsegs : raisedSegments r = [kept r.block] := by
      rw [raisedSegments, hnil]
      rfl
    rw [hsegs, raised, hnil]
    simpa using reads_kept r.block
  · have hsegs : raisedSegments r = [kept us] ++ [raisedPair r.block x] := by
      rw [raisedSegments, hconcat]
      simp
    have hreads := (reads_kept us).append (reads_raisedPair r.block x)
    rw [hsegs, raised, hconcat]
    simpa using hreads

theorem reads_lowerSegments (block ls : List Line) :
    Reads (lowerSegments block ls) (lowered block ls) (block ++ ls) := by
  cases ls with
  | nil => simpa [lowerSegments, lowered] using reads_kept block
  | cons y ys =>
      rw [lowerSegments, lowered]
      split
      · exact (reads_kept block).append (reads_kept (y :: ys))
      · have hreads := (reads_loweredPair block y).append (reads_kept ys)
        simpa using hreads

theorem reads_loweredSegments (block : List Line) (rs : List (Run Line))
    (rest : List Line) :
    Reads (loweredSegments block rs rest) (loweredLines block rs rest)
      (block ++ (runsToList rs ++ rest)) := by
  induction rs generalizing block with
  | nil => exact reads_lowerSegments block rest
  | cons r rs ih =>
      have hreads := (reads_lowerSegments block r.before).append (ih r.block)
      have hlist : block ++ (runsToList (r :: rs) ++ rest) =
          block ++ r.before ++ (r.block ++ (runsToList rs ++ rest)) := by
        simp [runsToList]
      rw [hlist]
      exact hreads

/-- The segments of a text have the exchanged contents and the terminators of
the text. -/
theorem reads_movedSegments (runs : Runs Line) (direction : LineDirection) :
    Reads (movedSegments runs direction) (linesMoved runs direction)
      (runsToList runs.runs ++ runs.rest) := by
  cases direction with
  | down => exact reads_loweredSegments [] runs.runs runs.rest
  | up =>
      refine Reads.append ?_ (reads_kept runs.rest)
      induction runs.runs with
      | nil => exact ⟨rfl, rfl, by simp⟩
      | cons r rs ih => exact (reads_raisedSegments r).append ih

/-- Segments of the right length match one by one. -/
theorem segments_match_iff {segs : List Segment}
    (hlen : ∀ s ∈ segs, s.text.length = (joinLines s.lines).length) :
    (segmentText segs = joinLines (segmentLines segs) ∧
        ∀ l ∈ segmentLines segs, l.Formed) ↔
      ∀ s ∈ segs, s.Matches := by
  induction segs with
  | nil => simp [segmentText, segmentLines]
  | cons s segs ih =>
      rw [List.forall_mem_cons] at hlen ⊢
      have htext : segmentText (s :: segs) = s.text ++ segmentText segs := rfl
      have hlines : segmentLines (s :: segs) = s.lines ++ segmentLines segs :=
        rfl
      have hcut : s.text ++ segmentText segs =
            joinLines s.lines ++ joinLines (segmentLines segs) ↔
          s.text = joinLines s.lines ∧
            segmentText segs = joinLines (segmentLines segs) :=
        ⟨fun h => List.append_inj h hlen.1, fun h => by rw [h.1, h.2]⟩
      rw [← ih hlen.2, htext, hlines, joinLines_append, hcut,
        List.forall_mem_append, Segment.Matches]
      exact and_and_and_comm

theorem eq_of_maps {ls ms : List Line}
    (hcontent : ls.map Line.content = ms.map Line.content)
    (hterm : ls.map Line.terminator = ms.map Line.terminator) : ls = ms := by
  induction ls generalizing ms with
  | nil => simpa using hcontent.symm
  | cons l ls ih =>
      cases ms with
      | nil => simp at hcontent
      | cons m ms =>
          rw [List.map_cons, List.map_cons, List.cons.injEq] at hcontent hterm
          have hlm : l = m := by
            obtain ⟨c, t⟩ := l
            obtain ⟨d, u⟩ := m
            obtain rfl : c = d := hcontent.1
            obtain rfl : t = u := hterm.1
            rfl
          rw [hlm, ih hcontent.2 hterm.2]

/-- Lines are formed by their own form and by their terminators. -/
theorem formedLines_of_terminators {ls ms : List Line}
    (h : FormedLines ms)
    (hterm : ls.map Line.terminator = ms.map Line.terminator)
    (hformed : ∀ l ∈ ls, l.Formed) : FormedLines ls := by
  induction ls generalizing ms with
  | nil =>
      rw [List.map_nil, eq_comm, List.map_eq_nil_iff] at hterm
      exact absurd hterm h.ne_nil
  | cons l ls ih =>
      cases ms with
      | nil => simp at hterm
      | cons m ms =>
          rw [List.map_cons, List.map_cons, List.cons.injEq] at hterm
          rw [List.forall_mem_cons] at hformed
          have hlast := h.terminator_iff
          by_cases hms : ms = []
          · subst hms
            have hls : ls = [] := by simpa using hterm.2
            subst hls
            exact ⟨hformed.1, hterm.1.trans (hlast.mpr rfl)⟩
          · refine (ih (h.tail hms) hterm.2 hformed.2).cons hformed.1 ?_
            rw [hterm.1]
            exact mt hlast.mp hms

theorem FormedLines.formed {ls : List Line} (h : FormedLines ls) :
    ∀ l ∈ ls, l.Formed := by
  induction ls with
  | nil => simp
  | cons l ls ih =>
      rw [List.forall_mem_cons]
      refine ⟨h.head, ?_⟩
      by_cases hls : ls = []
      · simp [hls]
      · exact ih (h.tail hls)

/-- A text made of segments has the lines of the segments exactly when every
segment matches. -/
theorem lines_segmentText_iff {segs : List Segment} {cs ts : List Line}
    (h : Reads segs cs ts) (hts : FormedLines ts) :
    ((segmentText segs).lines.map Line.content = cs.map Line.content ∧
        (segmentText segs).lines.map Line.terminator =
          ts.map Line.terminator) ↔
      ∀ s ∈ segs, s.Matches := by
  rw [← segments_match_iff h.length, ← h.contents, ← h.terminators]
  constructor
  · rintro ⟨hcontent, hterm⟩
    have hlines := eq_of_maps hcontent hterm
    rw [← hlines]
    exact ⟨(joinLines_lines _).symm, (lines_formed _).formed⟩
  · rintro ⟨htext, hformed⟩
    have hlines := formedLines_of_terminators hts h.terminators hformed
    rw [htext, lines_joinLines hlines]
    exact ⟨rfl, rfl⟩

/-! ## Which segments match -/

theorem kept_matches {ls : List Line} (h : ∀ l ∈ ls, l.Formed) :
    (kept ls).Matches :=
  ⟨rfl, h⟩

/-- In front of other lines every line has a line break. -/
theorem FormedLines.front {us vs : List Line} (h : FormedLines (us ++ vs))
    (hne : vs ≠ []) : ∀ l ∈ us, IsBreak l.terminator := by
  induction us with
  | nil => simp
  | cons l us ih =>
      have hmore : us ++ vs ≠ [] := by simp [hne]
      rw [List.forall_mem_cons]
      exact ⟨h.head.terminator.resolve_left (mt h.terminator_iff.mp hmore),
        ih (h.tail hmore)⟩

theorem FormedLines.blockLines {block more : List Line}
    (h : FormedLines (block ++ more)) : BlockLines block := by
  refine ⟨fun l hl => h.formed l (by simp [hl]), ?_⟩
  rcases List.eq_nil_or_concat' block with rfl | ⟨ls, l, rfl⟩
  · simp
  · rw [List.dropLast_concat]
    rw [List.append_assoc] at h
    exact h.front (by simp)

theorem raisedSegments_match_iff {r : Run Line} {more : List Line}
    (hne : r.block ≠ [])
    (h : FormedLines (r.before ++ (r.block ++ more))) :
    (∀ s ∈ raisedSegments r, s.Matches) ↔
      ∀ x ∈ r.before.getLast?, RaisesClean x r.block := by
  have hblock : FormedLines (r.block ++ more) := h.of_append (by simp [hne])
  rcases List.eq_nil_or_concat' r.before with hnil | ⟨us, x, hconcat⟩
  · have hkept := kept_matches hblock.blockLines.1
    rw [raisedSegments, hnil]
    simp [hkept]
  · have hbefore := h.front (by simp [hne])
    have hformed := h.formed
    rw [hconcat] at hbefore hformed
    have hkept : (kept us).Matches :=
      kept_matches fun l hl => hformed l (by simp [hl])
    have hpair := raisedPair_matches_iff hne hblock.blockLines
      (hformed x (by simp)) (hbefore x (by simp))
    have hsegs : raisedSegments r = [kept us, raisedPair r.block x] := by
      rw [raisedSegments, hconcat]
      simp
    rw [hsegs, List.forall_mem_cons, List.forall_mem_singleton, hpair,
      hconcat]
    simp [hkept]

theorem loweredPair_nil_matches {y : Line} (h : y.Formed) :
    (loweredPair [] y).Matches := by
  have hlines : (loweredPair [] y).lines = [y] := rfl
  rw [Segment.Matches, hlines]
  exact ⟨by simp [loweredPair, lastBreak, bodyText, Line.text], by simpa⟩

theorem lowersClean_nil (y : Line) : LowersClean [] y :=
  ⟨by simp, by simp, by simp⟩

theorem lowerSegments_match_iff {block ls more : List Line}
    (h : FormedLines (block ++ (ls ++ more))) :
    (∀ s ∈ lowerSegments block ls, s.Matches) ↔
      ∀ y ∈ ls.head?, y.text ≠ [] → LowersClean block y := by
  have hformed := h.formed
  simp only [List.forall_mem_append] at hformed
  obtain ⟨hblock, hls, -⟩ := hformed
  cases ls with
  | nil => simp [lowerSegments, kept_matches hblock]
  | cons y ys =>
      have hkept := kept_matches hls
      rw [List.forall_mem_cons] at hls
      simp only [lowerSegments, List.head?_cons, Option.mem_some_iff,
        forall_eq']
      by_cases hy : y.text = []
      · rw [if_pos hy]
        simp [hy, kept_matches hblock, hkept]
      · rw [if_neg hy, List.forall_mem_cons, List.forall_mem_singleton,
          and_iff_left (kept_matches hls.2)]
        by_cases hne : block = []
        · subst hne
          exact iff_of_true (loweredPair_nil_matches hls.1)
            fun _ => lowersClean_nil y
        · rw [loweredPair_matches_iff hne hblock (h.front (by simp)) hls.1]
          exact (imp_iff_right hy).symm

/-- What holds of every split of a list at an element, from its front. -/
theorem forall_splits_cons {α : Type*} {P : α → List α → Prop} {a : α}
    {as : List α} :
    (∀ front b back, a :: as = front ++ b :: back → P b back) ↔
      P a as ∧ ∀ front b back, as = front ++ b :: back → P b back := by
  constructor
  · intro h
    refine ⟨h [] a as rfl, fun front b back hsplit => ?_⟩
    exact h (a :: front) b back (by rw [hsplit]; rfl)
  · rintro ⟨ha, has⟩ front b back hsplit
    cases front with
    | nil =>
        obtain ⟨rfl, rfl⟩ := List.cons.inj hsplit
        exact ha
    | cons f front => exact has front b back (List.cons.inj hsplit).2

/-- The run `block` and the runs behind it.  Unless there is no such block,
each of these has a line in front of it. -/
theorem loweredSegments_match_iff {block : List Line} {rs : List (Run Line)}
    {rest : List Line} (h : FormedLines (block ++ (runsToList rs ++ rest)))
    (hblock : ∀ r ∈ rs, r.block ≠ [])
    (hfirst : block ≠ [] → ∀ r ∈ rs.head?, r.before ≠ [])
    (hlater : ∀ r ∈ rs.tail, r.before ≠ []) :
    (∀ s ∈ loweredSegments block rs rest, s.Matches) ↔
      (∀ y ∈ (runsToList rs ++ rest).head?, y.text ≠ [] →
        LowersClean block y) ∧
      ∀ front r back, rs = front ++ r :: back →
        ∀ y ∈ (runsToList back ++ rest).head?, y.text ≠ [] →
          LowersClean r.block y := by
  induction rs generalizing block with
  | nil =>
      have hrest : FormedLines (block ++ (rest ++ [])) := by
        simpa [runsToList] using h
      have hsegments := lowerSegments_match_iff hrest
      simpa [runsToList, loweredSegments] using hsegments
  | cons r rs ih =>
      rw [List.forall_mem_cons] at hblock
      have hcut : block ++ (runsToList (r :: rs) ++ rest) =
          block ++ (r.before ++ (r.block ++ (runsToList rs ++ rest))) := by
        simp [runsToList_cons]
      rw [hcut] at h
      have hbehind : FormedLines (r.block ++ (runsToList rs ++ rest)) := by
        rw [← List.append_assoc] at h
        exact h.of_append (by simp [hblock.1])
      have hnext : ∀ s ∈ rs.head?, s.before ≠ [] := by
        intro s hs
        exact hlater s (List.mem_of_mem_head? hs)
      have hrest := ih hbehind hblock.2 (fun _ => hnext)
        (fun s hs => hlater s (List.mem_of_mem_tail hs))
      have hhead : (∀ y ∈ (runsToList (r :: rs) ++ rest).head?,
            y.text ≠ [] → LowersClean block y) ↔
          ∀ y ∈ r.before.head?, y.text ≠ [] → LowersClean block y := by
        by_cases hbefore : r.before = []
        · obtain rfl : block = [] := by
            by_contra hne
            exact hfirst hne r rfl hbefore
          exact iff_of_true (fun y _ _ => lowersClean_nil y)
            fun y _ _ => lowersClean_nil y
        · obtain ⟨y, ys, hys⟩ := List.exists_cons_of_ne_nil hbefore
          simp [runsToList_cons, hys]
      rw [loweredSegments, List.forall_mem_append,
        lowerSegments_match_iff h, hrest, hhead, forall_splits_cons]

theorem raisedRuns_match_iff {rs : List (Run Line)} {rest : List Line}
    (h : FormedLines (runsToList rs ++ rest))
    (hblock : ∀ r ∈ rs, r.block ≠ []) :
    (∀ s ∈ rs.flatMap raisedSegments, s.Matches) ↔
      ∀ r ∈ rs, ∀ x ∈ r.before.getLast?, RaisesClean x r.block := by
  induction rs with
  | nil => simp
  | cons r rs ih =>
      rw [List.forall_mem_cons] at hblock
      have hcut : runsToList (r :: rs) ++ rest =
          r.before ++ (r.block ++ (runsToList rs ++ rest)) := by
        simp [runsToList_cons]
      rw [hcut] at h
      have hrest : (∀ s ∈ rs.flatMap raisedSegments, s.Matches) ↔
          ∀ s ∈ rs, ∀ x ∈ s.before.getLast?, RaisesClean x s.block := by
        cases rs with
        | nil => simp
        | cons s rs =>
            refine ih ?_ hblock.2
            have hs := hblock.2 s (by simp)
            have hne : runsToList (s :: rs) ++ rest ≠ [] := by
              simp [runsToList_cons, hs]
            exact (h.of_append (by simp [hblock.1])).of_append hne
      rw [List.flatMap_cons, List.forall_mem_append, List.forall_mem_cons,
        raisedSegments_match_iff hblock.1 h, hrest]

/-- The segments of a text match when all the runs that move exchange
cleanly. -/
theorem movedSegments_match_iff {runs : Runs Line} (hruns : runs.Separated)
    (h : FormedLines (runsToList runs.runs ++ runs.rest))
    (direction : LineDirection) :
    (∀ s ∈ movedSegments runs direction, s.Matches) ↔
      MovesClean runs direction := by
  obtain ⟨hblock, hbefore⟩ := hruns
  cases direction with
  | down =>
      have hiff := loweredSegments_match_iff h hblock
        (fun hne => absurd rfl hne) hbefore
      have hfront : ∀ y ∈ (runsToList runs.runs ++ runs.rest).head?,
          y.text ≠ [] → LowersClean [] y := fun y _ _ => lowersClean_nil y
      exact hiff.trans (and_iff_right hfront)
  | up =>
      have hrest : (kept runs.rest).Matches :=
        kept_matches fun l hl => h.formed l (by simp [hl])
      have hsegs : movedSegments runs .up =
          runs.runs.flatMap raisedSegments ++ [kept runs.rest] := rfl
      rw [hsegs, List.forall_mem_append, List.forall_mem_singleton,
        and_iff_left hrest]
      exact raisedRuns_match_iff h hblock

/-- The text that is made of the segments of a text has its touched lines moved
when the runs exchange cleanly. -/
theorem movesLines_iff (rope : Rope) (selections : List Selection)
    (direction : LineDirection) :
    MovesLines rope selections direction
        (segmentText (movedSegments (touchedRuns rope selections) direction)) ↔
      MovesClean (touchedRuns rope selections) direction := by
  have hreads := reads_movedSegments (touchedRuns rope selections) direction
  have hformed := touchedRuns_formed rope selections
  have hlines := lines_segmentText_iff hreads hformed
  rw [touchedRuns_toList] at hlines
  have hseparated := touchedRuns_separated rope selections
  rw [← movedSegments_match_iff hseparated hformed, ← hlines]
  exact ⟨fun h => ⟨h.contents, h.terminators⟩, fun h => ⟨h.1, h.2⟩⟩

end Tempr.Editor
