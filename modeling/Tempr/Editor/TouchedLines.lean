import Tempr.Editor.TextLines
import Tempr.Support.Runs

/-!
# Lines that selections touch

A selection touches whole lines.  The blocks that the line operations work on
are the maximal runs of the lines that are touched.
-/

namespace Tempr.Editor

open Tempr.Support

/-! ## Marked lines -/

/-- Mark lines by their offsets and by whether they are the last line. -/
def markLines (mark : ℕ → ℕ → Bool → Bool) : ℕ → List Line →
    List (Line × Bool)
  | _, [] => []
  | o, l :: ls =>
      let stop := o + Rope.lenBytes l.text
      (l, mark o stop ls.isEmpty) :: markLines mark stop ls

/-- Does a selection touch the line at offsets `start..stop`?  A cursor touches
the line it stands in, and a selection every line it selects a character of. -/
def Selection.touches (s : Selection) (start stop : ℕ) (isLast : Bool) :
    Bool :=
  if s.isEmpty then start ≤ s.head && (s.head < stop || isLast)
  else s.start < stop && start < s.stop

/-- The lines of a text, marked where one of the selections touches them. -/
def touchedLines (rope : Rope) (selections : List Selection) :
    List (Line × Bool) :=
  markLines (fun start stop isLast =>
    selections.any fun s => s.touches start stop isLast) 0 rope.lines

/-- The maximal runs of touched lines. -/
def touchedRuns (rope : Rope) (selections : List Selection) : Runs Line :=
  runsOf (touchedLines rope selections)

theorem map_fst_markLines (mark : ℕ → ℕ → Bool → Bool) (o : ℕ)
    (ls : List Line) : (markLines mark o ls).map Prod.fst = ls := by
  induction ls generalizing o with
  | nil => rfl
  | cons l ls ih => simp only [markLines, List.map_cons, ih]

/-- The line of offset `o` is in a block. -/
def inBlock (b : ByteRange × Bool) (o : ℕ) : Bool :=
  b.1.start ≤ o && (o < b.1.stop || !b.2)

/-- Mark the lines that start in one of the blocks. -/
def markBlocks (blocks : List (ByteRange × Bool)) :
    ℕ → List Line → List (Line × Bool) :=
  markLines fun start _ _ => blocks.any fun b => inBlock b start

section Marks

variable {blocks : List (ByteRange × Bool)}

theorem markBlocks_cons (o : ℕ) (l : Line) (ls : List Line) :
    markBlocks blocks o (l :: ls) =
      (l, blocks.any fun b => inBlock b o) ::
        markBlocks blocks (o + Rope.lenBytes l.text) ls :=
  rfl

theorem markBlocks_append (o : ℕ) (us vs : List Line) :
    markBlocks blocks o (us ++ vs) =
      markBlocks blocks o us ++
        markBlocks blocks (o + Rope.lenBytes (joinLines us)) vs := by
  induction us generalizing o with
  | nil => rfl
  | cons l us ih =>
      rw [List.cons_append, markBlocks_cons, ih, markBlocks_cons,
        joinLines_cons, Rope.lenBytes_append, ← Nat.add_assoc]
      rfl

theorem markBlocks_congr {blocks' : List (ByteRange × Bool)} {o : ℕ}
    (h : ∀ p, o ≤ p → (blocks.any fun b => inBlock b p) =
      blocks'.any fun b => inBlock b p) (ls : List Line) :
    markBlocks blocks o ls = markBlocks blocks' o ls := by
  induction ls generalizing o with
  | nil => rfl
  | cons l ls ih =>
      rw [markBlocks_cons, markBlocks_cons, h o le_rfl,
        ih fun p hp => h p (by omega)]

theorem markBlocks_constant {marked : Bool} {o : ℕ}
    (h : ∀ p, o ≤ p → (blocks.any fun b => inBlock b p) = marked)
    (us : List Line) : ∀ x ∈ markBlocks blocks o us, x.2 = marked := by
  induction us generalizing o with
  | nil => simp [markBlocks, markLines]
  | cons l us ih =>
      rw [markBlocks_cons, List.forall_mem_cons]
      exact ⟨h o le_rfl, ih fun p hp => h p (by omega)⟩

/-- Lines with other lines behind them all start in front of those. -/
theorem markBlocks_constant_before {marked : Bool} {o : ℕ} {us : List Line}
    (hus : ∀ l ∈ us, l.terminator ≠ [])
    (h : ∀ p, o ≤ p → p < o + Rope.lenBytes (joinLines us) →
      (blocks.any fun b => inBlock b p) = marked) :
    ∀ x ∈ markBlocks blocks o us, x.2 = marked := by
  induction us generalizing o with
  | nil => simp [markBlocks, markLines]
  | cons l us ih =>
      rw [List.forall_mem_cons] at hus
      have hpos := Line.lenBytes_text_pos hus.1
      rw [joinLines_cons, Rope.lenBytes_append] at h
      rw [markBlocks_cons, List.forall_mem_cons]
      exact ⟨h o le_rfl (by omega),
        ih hus.2 fun p hp hlt => h p (by omega) (by omega)⟩

end Marks

/-! ## Blocks are runs -/

section Behind

variable {rest : List Line}

theorem isEmpty_behind {r : Run Line} {rs : List (Run Line)}
    (hblock : ∀ s ∈ r :: rs, s.block ≠ []) :
    (runsToList rs ++ rest).isEmpty = (rs.isEmpty && rest.isEmpty) := by
  cases rs with
  | nil => rfl
  | cons s rs =>
      have hs := hblock s (by simp)
      simp [runsToList_cons, hs]

theorem formedLines_behind {r : Run Line} {rs : List (Run Line)}
    (hblock : ∀ s ∈ rs, s.block ≠ [])
    (h : FormedLines (runsToList (r :: rs) ++ rest)) (hne : rs ≠ []) :
    FormedLines (runsToList rs ++ rest) := by
  rw [runsToList_cons, List.append_assoc] at h
  apply h.of_append
  obtain ⟨s, rs, rfl⟩ := List.exists_cons_of_ne_nil hne
  have hs := hblock s (by simp)
  simp [runsToList_cons, hs]

end Behind

/-- The offsets of the runs of a text, and whether each ends in a line break. -/
def blockRanges : ℕ → List (Run Line) → List Line →
    List (ByteRange × Bool)
  | _, [], _ => []
  | o, r :: rs, rest =>
      let start := o + Rope.lenBytes (joinLines r.before)
      let stop := start + Rope.lenBytes (joinLines r.block)
      (⟨start, stop⟩, !(rs.isEmpty && rest.isEmpty)) ::
        blockRanges stop rs rest

theorem not_inBlock_of_lt {b : ByteRange × Bool} {o : ℕ}
    (h : o < b.1.start) : inBlock b o = false := by
  simp only [inBlock, Bool.and_eq_false_iff, decide_eq_false_iff_not]
  omega

theorem any_inBlock_of_lt {blocks : List (ByteRange × Bool)} {o : ℕ}
    (h : ∀ b ∈ blocks, o < b.1.start) :
    (blocks.any fun b => inBlock b o) = false := by
  rw [List.any_eq_false]
  intro b hb
  simp [not_inBlock_of_lt (h b hb)]

/-- The lines in front of a line start. -/
theorem exists_block_start {rope p : Rope} {ls : List Line}
    (hrope : rope = p ++ joinLines ls) (hls : FormedLines ls) {o : ℕ}
    (ho : IsLineStart rope o) (hle : Rope.lenBytes p ≤ o) :
    ∃ us vs, ls = us ++ vs ∧ rope = p ++ joinLines us ++ joinLines vs ∧
      FormedLines vs ∧ (∀ l ∈ us, l.terminator ≠ []) ∧
      Rope.lenBytes p + Rope.lenBytes (joinLines us) = o := by
  obtain ⟨p', s, hcut, hp', rfl⟩ := ho
  obtain ⟨m, rfl, hm⟩ := exists_append_of_span_le Rope.utf8Size_pos
    (hrope.symm.trans hcut) hle
  obtain ⟨us, vs, rfl, rfl, rfl, hformed, hterm⟩ :=
    exists_lines_cut hls hm hp'.suffix
  exact ⟨us, vs, rfl, hcut, hformed, hterm,
    (Rope.lenBytes_append p (joinLines us)).symm⟩

section OneBlock

variable {b : ByteRange × Bool} {blocks : List (ByteRange × Bool)} {o : ℕ}
  {us : List Line}

/-- The lines in front of the first block are in none. -/
theorem markBlocks_before (hus : ∀ l ∈ us, l.terminator ≠ [])
    (hstart : o + Rope.lenBytes (joinLines us) = b.1.start)
    (hlater : ∀ c ∈ blocks, b.1.start ≤ c.1.start) :
    ∀ x ∈ markBlocks (b :: blocks) o us, x.2 = false := by
  apply markBlocks_constant_before hus
  intro p _ hp
  apply any_inBlock_of_lt
  rw [List.forall_mem_cons]
  refine ⟨by omega, fun c hc => ?_⟩
  have := hlater c hc
  omega

/-- A block without a line break is a run of all lines from its start on. -/
theorem runsOf_last_block (hus : ∀ l ∈ us, l.terminator ≠ [])
    (hstart : o + Rope.lenBytes (joinLines us) = b.1.start)
    (hbreak : b.2 = false) {vs : List Line} (hvs : vs ≠ []) :
    runsOf (markBlocks [b] o (us ++ vs)) = ⟨[⟨us, vs⟩], []⟩ := by
  have hbefore : ∀ x ∈ markBlocks [b] o us, x.2 = false :=
    markBlocks_before hus hstart (by simp)
  have hmarked : ∀ x ∈ markBlocks [b] b.1.start vs, x.2 = true :=
    markBlocks_constant (fun p hp => by simp [inBlock, hbreak, hp]) vs
  have hne : markBlocks [b] b.1.start vs ≠ [] := by
    obtain ⟨l, ls, rfl⟩ := List.exists_cons_of_ne_nil hvs
    simp [markBlocks_cons]
  have hnothing : ∀ x ∈ ([] : List (Line × Bool)).head?, x.2 = false := by
    simp
  have hruns := runsOf_run hbefore hne hmarked hnothing
  rw [List.append_nil, runsOf_nil] at hruns
  rw [markBlocks_append, hstart, hruns]
  simp only [markBlocks, map_fst_markLines]

/-- A block that ends in a line break is a run of the lines up to its end. -/
theorem runsOf_block (hus : ∀ l ∈ us, l.terminator ≠ [])
    (hstart : o + Rope.lenBytes (joinLines us) = b.1.start)
    (hbreak : b.2 = true) {bs : List Line} (hbs : bs ≠ [])
    (hterm : ∀ l ∈ bs, l.terminator ≠ [])
    (hstop : b.1.start + Rope.lenBytes (joinLines bs) = b.1.stop)
    (hlater : ∀ c ∈ blocks, b.1.stop < c.1.start) {ws : List Line}
    (hws : ws ≠ []) :
    runsOf (markBlocks (b :: blocks) o (us ++ (bs ++ ws))) =
      ⟨⟨us, bs⟩ :: (runsOf (markBlocks blocks b.1.stop ws)).runs,
        (runsOf (markBlocks blocks b.1.stop ws)).rest⟩ := by
  have hbefore : ∀ x ∈ markBlocks (b :: blocks) o us, x.2 = false := by
    refine markBlocks_before hus hstart fun c hc => ?_
    have := hlater c hc
    omega
  have hmarked : ∀ x ∈ markBlocks (b :: blocks) b.1.start bs, x.2 = true := by
    apply markBlocks_constant_before hterm
    intro p hp hlt
    have hin : inBlock b p = true := by
      simp only [inBlock, hbreak, Bool.and_eq_true, decide_eq_true_eq,
        Bool.or_eq_true]
      exact ⟨hp, .inl (by omega)⟩
    rw [List.any_cons, hin, Bool.true_or]
  have hbehind : markBlocks (b :: blocks) b.1.stop ws =
      markBlocks blocks b.1.stop ws := by
    apply markBlocks_congr
    intro p hp
    have hout : inBlock b p = false := by
      simp only [inBlock, hbreak, Bool.and_eq_false_iff,
        Bool.or_eq_false_iff, decide_eq_false_iff_not]
      exact .inr ⟨by omega, rfl⟩
    rw [List.any_cons, hout, Bool.false_or]
  have hhead : ∀ x ∈ (markBlocks blocks b.1.stop ws).head?, x.2 = false := by
    obtain ⟨w, ws, rfl⟩ := List.exists_cons_of_ne_nil hws
    simp only [markBlocks_cons, List.head?_cons, Option.mem_some_iff,
      forall_eq']
    exact any_inBlock_of_lt hlater
  have hne : markBlocks (b :: blocks) b.1.start bs ≠ [] := by
    obtain ⟨l, ls, rfl⟩ := List.exists_cons_of_ne_nil hbs
    simp [markBlocks_cons]
  have hruns := runsOf_run hbefore hne hmarked hhead
  rw [markBlocks_append, hstart, markBlocks_append, hstop, hbehind, hruns]
  simp only [markBlocks, map_fst_markLines]

/-- Something is left of a text behind a block that ends in a line break. -/
theorem runsOf_markBlocks_isEmpty {ws : List Line} (hws : ws ≠ []) :
    ((runsOf (markBlocks blocks o ws)).runs.isEmpty &&
      (runsOf (markBlocks blocks o ws)).rest.isEmpty) = false := by
  have hlist := runsOf_toList (markBlocks blocks o ws)
  rw [markBlocks, map_fst_markLines, ← markBlocks] at hlist
  rw [← Bool.not_eq_true, Bool.and_eq_true, List.isEmpty_iff,
    List.isEmpty_iff]
  rintro ⟨hnoruns, hnorest⟩
  rw [hnoruns, hnorest] at hlist
  exact hws hlist.symm

/-- Only the last block reaches the end of the text. -/
theorem AreBlocks.eq_nil_of_end {rope : Rope}
    (h : AreBlocks rope (b :: blocks)) (hbreak : b.2 = false) :
    blocks = [] := by
  by_contra hne
  obtain ⟨c, cs, rfl⟩ := List.exists_cons_of_ne_nil hne
  have hstop := (h.each b (by simp)).stop_end hbreak
  have hc := h.each c (by simp)
  have hapart := (List.pairwise_cons.mp h.apart).1 c (by simp)
  have hle := hc.le
  have hbound := hc.valid.inBounds
  omega

end OneBlock

/-- The blocks of a text are the offsets of the runs of the lines in them.
`p` is the text in front of the lines. -/
theorem blockRanges_runsOf {rope p : Rope} {ls : List Line}
    {blocks : List (ByteRange × Bool)} (hrope : rope = p ++ joinLines ls)
    (hls : FormedLines ls) (h : AreBlocks rope blocks)
    (hbase : ∀ b ∈ blocks, Rope.lenBytes p ≤ b.1.start) :
    blockRanges (Rope.lenBytes p)
      (runsOf (markBlocks blocks (Rope.lenBytes p) ls)).runs
      (runsOf (markBlocks blocks (Rope.lenBytes p) ls)).rest = blocks := by
  induction blocks generalizing p ls with
  | nil =>
      rw [runsOf_of_unmarked (markBlocks_constant (fun _ _ => rfl) ls)]
      rfl
  | cons b blocks ih =>
      have hb := h.each b (by simp)
      rw [List.forall_mem_cons] at hbase
      obtain ⟨us, vs, rfl, hcut, hvs, hterm, hstart⟩ :=
        exists_block_start hrope hls hb.start_line hbase.1
      cases hbreak : b.2 with
      | false =>
          obtain rfl := h.eq_nil_of_end hbreak
          have hlen : b.1.start + Rope.lenBytes (joinLines vs) = b.1.stop := by
            rw [hb.stop_end hbreak, hcut]
            simp only [Rope.lenBytes_append]
            omega
          rw [runsOf_last_block hterm hstart hbreak hvs.ne_nil]
          simp only [blockRanges, hstart, hlen]
          obtain ⟨r, hasBreak⟩ := b
          obtain rfl : hasBreak = false := hbreak
          rfl
      | true =>
          obtain ⟨hstopLine, hlt⟩ := hb.stop_line hbreak
          obtain ⟨hlater, happart⟩ := List.pairwise_cons.mp h.apart
          have hfront : Rope.lenBytes (p ++ joinLines us) = b.1.start := by
            rw [Rope.lenBytes_append]
            exact hstart
          obtain ⟨bs, ws, rfl, hcut', hws, hterm', hstop⟩ :=
            exists_block_start hcut hvs hstopLine (by omega)
          rw [hfront] at hstop
          have hbs : bs ≠ [] := by
            rintro rfl
            simp at hstop
            omega
          have htail : AreBlocks rope blocks :=
            ⟨fun c hc => h.each c (List.mem_cons_of_mem _ hc), happart⟩
          have hrest := ih hcut' hws htail fun c hc => by
            rw [Rope.lenBytes_append, hfront, hstop]
            exact (hlater c hc).le
          rw [Rope.lenBytes_append, hfront, hstop] at hrest
          rw [runsOf_block hterm hstart hbreak hbs hterm' hstop hlater
            hws.ne_nil]
          simp only [blockRanges, runsOf_markBlocks_isEmpty hws.ne_nil, hstart,
            hstop, hrest]
          obtain ⟨r, hasBreak⟩ := b
          obtain rfl : hasBreak = true := hbreak
          rfl

/-! ## Touched lines are the lines in blocks -/

section Touched

variable {rope : Rope} {s : Selection}

theorem lineOf_lt_iff {o k : ℕ} (ho : rope.IsCharBoundary o)
    (hk : k < rope.lenLines) :
    rope.lineOf o < k ↔ o < rope.lineToByte k :=
  ⟨fun h => Rope.lt_lineToByte ho h hk, Rope.lineOf_lt_of_lt ho⟩

theorem lastTouchedLine_of_isEmpty (h : s.isEmpty = true) :
    rope.lastTouchedLine s = rope.lineOf s.stop := by
  simp [Rope.lastTouchedLine, h, Rope.lineOf]

/-- The last line a selection touches is the last one that starts in front of
its end. -/
theorem le_lastTouchedLine_iff (h : s.Valid rope) (hne : s.start < s.stop)
    {i : ℕ} (hi : i < rope.lenLines) :
    i ≤ rope.lastTouchedLine s ↔ rope.lineToByte i < s.stop := by
  have hempty : s.isEmpty = false := by
    rw [← Bool.not_eq_true, s.isEmpty_iff]
    omega
  have hcolumn := Rope.pointForOffset_column h.stop_boundary
  have hle := Rope.lineToByte_lineOf_le h.stop_boundary
  have hlast := Rope.lineOf_lt_lenLines h.stop_boundary
  rw [Rope.lastTouchedLine]
  simp only [hcolumn, hempty, Bool.not_false, Bool.true_and]
  split
  case isTrue hends =>
    simp only [Bool.and_eq_true, decide_eq_true_eq] at hends
    change _ ∧ 0 < rope.lineOf s.stop at hends
    have hat : rope.lineToByte (rope.lineOf s.stop) = s.stop := by omega
    have hlt := Rope.lineToByte_lt_iff hi hlast
    rw [hat] at hlt
    change i ≤ rope.lineOf s.stop - 1 ↔ _
    rw [hlt]
    omega
  case isFalse hends =>
    simp only [Bool.and_eq_true, decide_eq_true_eq] at hends
    change i ≤ rope.lineOf s.stop ↔ _
    constructor
    · intro hile
      have hmono := Rope.lineToByte_mono hile hlast
      by_cases hzero : rope.lineOf s.stop = 0
      · obtain rfl : i = 0 := by omega
        have hfirst : rope.lineToByte 0 = 0 := by
          cases rope with
          | nil => rfl
          | cons c rope => rfl
        omega
      · change ¬(_ ∧ 0 < rope.lineOf s.stop) at hends
        omega
    · intro hlt
      by_contra hnot
      have := (lineOf_lt_iff h.stop_boundary hi).mp (not_le.mp hnot)
      omega

/-- A line is in the block of a selection between the selection's first and
last touched lines. -/
theorem inBlock_lineBlock_iff (h : s.Valid rope) {i : ℕ}
    (hi : i < rope.lenLines) :
    inBlock (rope.lineBlock s) (rope.lineToByte i) = true ↔
      rope.lineOf s.start ≤ i ∧ i ≤ rope.lastTouchedLine s := by
  have hfirst := Rope.lineOf_lt_lenLines h.start_boundary
  have hstart : rope.lineToByte (rope.lineOf s.start) ≤ rope.lineToByte i ↔
      rope.lineOf s.start ≤ i := by
    have := Rope.lineToByte_lt_iff hi hfirst
    omega
  by_cases hlast : rope.lastTouchedLine s + 1 < rope.lenLines
  · have hstop := Rope.lineToByte_lt_iff hi hlast
    rw [lineBlock_of_break h hlast]
    simp only [inBlock, Bool.and_eq_true, decide_eq_true_eq, Bool.not_true,
      Bool.or_false, hstart, hstop]
    omega
  · rw [lineBlock_of_end h hlast]
    simp only [inBlock, Bool.and_eq_true, decide_eq_true_eq, Bool.not_false,
      Bool.or_true, and_true, hstart]
    omega

section OneLine

variable {p v : Rope} {l : Line} (hrope : rope = p ++ l.text ++ v)
  (hp : Rope.LineStart p) (hl : l.Formed)
  (hlast : l.terminator = [] → v = [])

include hrope hl hlast in
/-- The line `l` behind `p` is the line of an offset or behind it when the
offset lies in front of the next line. -/
theorem lineOf_le_iff {o : ℕ} (ho : rope.IsCharBoundary o) :
    rope.lineOf o ≤ p.count '\n' ↔
      o < Rope.lenBytes p + Rope.lenBytes l.text ∨ l.terminator = [] := by
  by_cases hterm : l.terminator = []
  · have hcount : rope.lenLines = p.count '\n' + 1 := by
      rw [hrope, hlast hterm, Line.text, hterm, Rope.lenLines]
      simp [Rope.count_feed_eq_zero hl.content]
    have := Rope.lineOf_lt_lenLines ho
    exact iff_of_true (by omega) (.inr hterm)
  · obtain ⟨body, hbody, hfeed⟩ := hl.exists_body hterm
    have hcount : (p ++ l.text).count '\n' = p.count '\n' + 1 := by
      rw [hbody]
      simp [Rope.count_feed_eq_zero hfeed]
    have hnext : Rope.LineStart (p ++ l.text) := by
      rw [hbody, ← List.append_assoc]
      exact .append_feed _
    have hmore : p.count '\n' + 1 < rope.lenLines := by
      rw [hrope, ← hcount]
      exact Rope.count_append_lt_lenLines _ v
    have hbyte : rope.lineToByte (p.count '\n' + 1) =
        Rope.lenBytes p + Rope.lenBytes l.text := by
      rw [hrope, ← hcount, Rope.lineToByte_append hnext,
        Rope.lenBytes_append]
    have hiff := lineOf_lt_iff ho hmore
    rw [hbyte] at hiff
    simp only [hterm, or_false]
    omega

include hrope hp hl hlast in
/-- A selection touches the lines of its block. -/
theorem touches_iff_inBlock (h : s.Valid rope) :
    s.touches (Rope.lenBytes p) (Rope.lenBytes p + Rope.lenBytes l.text)
        (decide (l.terminator = [])) = true ↔
      inBlock (rope.lineBlock s) (Rope.lenBytes p) = true := by
  have hline : p.count '\n' < rope.lenLines := by
    rw [hrope, List.append_assoc]
    exact Rope.count_append_lt_lenLines p _
  have hoffset : rope.lineToByte (p.count '\n') = Rope.lenBytes p := by
    rw [hrope, List.append_assoc]
    exact Rope.lineToByte_append hp _
  have hinBlock := inBlock_lineBlock_iff h hline
  rw [hoffset] at hinBlock
  rw [hinBlock]
  have hin := h.inBounds
  have hbehind := lineOf_le_iff hrope hl hlast h.start_boundary
  by_cases hempty : s.isEmpty = true
  · have heq := s.isEmpty_iff.mp hempty
    have hhead := s.head_between
    have hfirst := lineOf_lt_iff h.start_boundary hline
    rw [hoffset] at hfirst
    rw [lastTouchedLine_of_isEmpty hempty, ← heq, hbehind]
    simp only [Selection.touches, hempty, if_true, Bool.and_eq_true,
      Bool.or_eq_true, decide_eq_true_eq]
    have hsame : s.head = s.start := by omega
    have hfront : p.count '\n' ≤ rope.lineOf s.start ↔
        Rope.lenBytes p ≤ s.start := by omega
    rw [hsame, hfront]
    exact and_comm
  · have hlt : s.start < s.stop := by
      have := s.start_le_stop
      rw [s.isEmpty_iff] at hempty
      omega
    have hend := le_lastTouchedLine_iff h hlt hline
    rw [hoffset] at hend
    rw [hend, hbehind]
    simp only [Selection.touches, if_neg hempty, Bool.and_eq_true,
      decide_eq_true_eq]
    constructor
    · rintro ⟨hstart, hstop⟩
      exact ⟨.inl hstart, hstop⟩
    · rintro ⟨hstart | hterm, hstop⟩
      · exact ⟨hstart, hstop⟩
      · have hlen : rope.lenBytes =
            Rope.lenBytes p + Rope.lenBytes l.text := by
          rw [hrope, hlast hterm, List.append_nil, Rope.lenBytes_append]
        exact ⟨by omega, hstop⟩

end OneLine

end Touched

/-- Merging blocks keeps the lines that are in them. -/
theorem mergeBlocks_inBlock_iff {last : ByteRange × Bool}
    {rest : List (ByteRange × Bool)}
    (hbefore : (last :: rest).Pairwise BlockBefore) (o : ℕ) :
    (∃ b ∈ Rope.mergeBlocks last rest, inBlock b o = true) ↔
      ∃ b ∈ last :: rest, inBlock b o = true := by
  induction rest generalizing last with
  | nil => rfl
  | cons block rest ih =>
      rw [List.pairwise_cons, List.forall_mem_cons] at hbefore
      obtain ⟨⟨hle, hlast⟩, hrest⟩ := hbefore
      simp only [Rope.mergeBlocks]
      by_cases htouch : block.1.start ≤ last.1.stop
      · have hstart := hle.start_le
        have hstop := hle.stop_le
        have hends := hle.ends
        have hmerged : inBlock (⟨last.1.start,
            max last.1.stop block.1.stop⟩, block.2) o = true ↔
              inBlock last o = true ∨ inBlock block o = true := by
          simp only [inBlock, Bool.and_eq_true, Bool.or_eq_true,
            decide_eq_true_eq, Bool.not_eq_true']
          cases ha : last.2 with
          | false =>
              have hb : block.2 = false := by
                rw [← Bool.not_eq_true]
                exact fun hb => Bool.false_ne_true (ha.symm.trans (hends hb))
              simp only [hb, or_true, and_true]
              omega
          | true =>
              cases hb : block.2 with
              | false =>
                  simp only [Bool.true_eq_false, or_true, or_false, and_true]
                  omega
              | true =>
                  simp only [Bool.true_eq_false, or_false]
                  omega
        have hmergedBefore : ((⟨last.1.start,
            max last.1.stop block.1.stop⟩, block.2) :: rest).Pairwise
              BlockBefore := by
          rw [List.pairwise_cons] at hrest ⊢
          refine ⟨fun c hc => ?_, hrest.2⟩
          have hc' := hrest.1 c hc
          have h1 := hc'.start_le
          have h2 := hc'.stop_le
          exact ⟨by simp only; omega, by simp only; omega, hc'.ends⟩
        rw [if_pos htouch, ih hmergedBefore]
        simp only [List.exists_mem_cons_iff, hmerged, or_assoc]
      · rw [if_neg htouch]
        simp only [List.exists_mem_cons_iff] at ih ⊢
        rw [ih hrest]

section Selections

variable {rope : Rope} {selections : List Selection}
  (h : ∀ s ∈ selections, s.Valid rope)

include h in
theorem lineBlocks_inBlock_iff (o : ℕ) :
    (∃ b ∈ rope.lineBlocks selections, inBlock b o = true) ↔
      ∃ s ∈ normalize selections, inBlock (rope.lineBlock s) o = true := by
  have hvalid := normalize_valid h
  have hapart := normalize_apart selections
  rw [Rope.lineBlocks]
  cases hlist : normalize selections with
  | nil => simp
  | cons s rest =>
      rw [hlist] at hvalid hapart
      have hbefore : ((s :: rest).map rope.lineBlock).Pairwise
          BlockBefore := by
        rw [List.pairwise_map]
        exact hapart.imp_of_mem fun ha hb hab =>
          lineBlock_before (hvalid _ ha) (hvalid _ hb) hab
      have hiff := mergeBlocks_inBlock_iff hbefore o
      rw [← List.map_cons] at hiff
      simp only [List.map_cons] at hiff ⊢
      rw [hiff, ← List.map_cons]
      simp only [List.mem_map, exists_exists_and_eq_and]

section Normalized

variable {start stop : ℕ} {isLast : Bool}
  (hlast : isLast = true → ∀ t ∈ normalize selections, t.stop ≤ stop)

omit h in
include hlast in
/-- A merged selection touches a line only where one of its parts does. -/
theorem touches_of_normalize (hmore : isLast = false → start < stop)
    {t : Selection} (ht : t ∈ normalize selections)
    (htouch : t.touches start stop isLast = true) :
    ∃ s ∈ selections, s.touches start stop isLast = true := by
  have hmade := normalize_madeOf selections t ht
  have htle := t.start_le_stop
  by_cases hempty : t.isEmpty = true
  · -- A cursor is made of cursors.
    obtain ⟨s, hs, hstart, hstop⟩ := hmade.start_mem
    have hte := t.isEmpty_iff.mp hempty
    have hsle := s.start_le_stop
    have hse : s.isEmpty = true := s.isEmpty_iff.mpr (by omega)
    have hsh := s.head_between
    have hth := t.head_between
    have hsame : s.head = t.head := by omega
    refine ⟨s, hs, ?_⟩
    rw [Selection.touches, if_pos hempty] at htouch
    rwa [Selection.touches, if_pos hse, hsame]
  · -- Some selection covers an offset that the line and `t` share.
    rw [Selection.touches, if_neg hempty] at htouch
    simp only [Bool.and_eq_true, decide_eq_true_eq] at htouch
    have hline : start < stop := by
      cases isLast with
      | false => exact hmore rfl
      | true => exact htouch.2.trans_le (hlast rfl t ht)
    rw [t.isEmpty_iff] at hempty
    obtain ⟨s, hs, hcontains⟩ := hmade.covered (max t.start start) (by
      simp only [ByteRange.contains_iff, Selection.range]
      omega)
    simp only [ByteRange.contains_iff, Selection.range] at hcontains
    have hsne : ¬s.isEmpty = true := by
      rw [s.isEmpty_iff]
      omega
    refine ⟨s, hs, ?_⟩
    rw [Selection.touches, if_neg hsne]
    simp only [Bool.and_eq_true, decide_eq_true_eq]
    omega

omit h in
include hlast in
/-- The lines of a selection are touched by what it is merged into. -/
theorem touches_normalize {s : Selection} (hs : s ∈ selections)
    (htouch : s.touches start stop isLast = true) :
    ∃ t ∈ normalize selections, t.touches start stop isLast = true := by
  obtain ⟨t, ht, hstart, hstop, hin⟩ := normalize_contains hs
  have hsle := s.start_le_stop
  have hsh := s.head_between
  have hth := t.head_between
  refine ⟨t, ht, ?_⟩
  by_cases hempty : t.isEmpty = true
  · have hte := t.isEmpty_iff.mp hempty
    have hse : s.isEmpty = true := s.isEmpty_iff.mpr (by omega)
    have hsame : s.head = t.head := by omega
    rw [Selection.touches, if_pos hse] at htouch
    rwa [Selection.touches, if_pos hempty, ← hsame]
  · have hend : isLast = true → t.stop ≤ stop := fun hl => hlast hl t ht
    rw [Selection.touches, if_neg hempty]
    rw [t.isEmpty_iff] at hempty
    rw [Selection.touches] at htouch
    split at htouch
    case isTrue hse =>
      have hse := s.isEmpty_iff.mp hse
      simp only [Bool.and_eq_true, Bool.or_eq_true,
        decide_eq_true_eq] at htouch ⊢
      rcases htouch with ⟨hfront, hbehind | hbehind⟩
      · omega
      · have := hend hbehind
        omega
    case isFalse hse =>
      simp only [Bool.and_eq_true, decide_eq_true_eq] at htouch ⊢
      omega

omit h in
include hlast in
/-- Normalising keeps the lines that the selections touch. -/
theorem touches_normalize_iff (hmore : isLast = false → start < stop) :
    (∃ t ∈ normalize selections, t.touches start stop isLast = true) ↔
      ∃ s ∈ selections, s.touches start stop isLast = true := by
  constructor
  · rintro ⟨t, ht, htouch⟩
    exact touches_of_normalize hlast hmore ht htouch
  · rintro ⟨s, hs, htouch⟩
    exact touches_normalize hlast hs htouch

end Normalized

include h in
theorem markLines_eq_markBlocks {p : Rope} {ls : List Line}
    (hrope : rope = p ++ joinLines ls) (hp : Rope.LineStart p)
    (hls : FormedLines ls) :
    markLines (fun start stop isLast =>
        selections.any fun s => s.touches start stop isLast)
      (Rope.lenBytes p) ls =
        markBlocks (rope.lineBlocks selections) (Rope.lenBytes p) ls := by
  induction ls generalizing p with
  | nil => exact absurd rfl hls.ne_nil
  | cons l ls ih =>
      have hl := hls.head
      have hterm := hls.terminator_iff
      have hcut : rope = p ++ l.text ++ joinLines ls := by
        rw [hrope, joinLines_cons, List.append_assoc]
      have hlast : ls.isEmpty = decide (l.terminator = []) := by
        rw [Bool.eq_iff_iff, List.isEmpty_iff, decide_eq_true_eq]
        exact hterm.symm
      have hnone : l.terminator = [] → joinLines ls = [] := by
        intro hnil
        rw [hterm.mp hnil]
        rfl
      have hmark : (selections.any fun s => s.touches (Rope.lenBytes p)
            (Rope.lenBytes p + Rope.lenBytes l.text) ls.isEmpty) =
          (rope.lineBlocks selections).any fun b =>
            inBlock b (Rope.lenBytes p) := by
        rw [Bool.eq_iff_iff, List.any_eq_true, List.any_eq_true,
          lineBlocks_inBlock_iff h, ← touches_normalize_iff, hlast]
        · refine exists_congr fun s => and_congr_right fun hs => ?_
          exact touches_iff_inBlock hcut hp hl hnone (normalize_valid h s hs)
        · rw [hlast, decide_eq_true_eq]
          intro hnil t ht
          have hin := (normalize_valid h t ht).inBounds
          rwa [hcut, hnone hnil, List.append_nil, Rope.lenBytes_append]
            at hin
        · rw [hlast, decide_eq_false_iff_not]
          intro hne
          have := Line.lenBytes_text_pos hne
          omega
      rw [markBlocks_cons, ← hmark]
      simp only [markLines]
      congr 1
      by_cases hmore : ls = []
      · rw [hmore]
        rfl
      · obtain ⟨body, hbody, -⟩ := hl.exists_body (mt hterm.mp hmore)
        have hnext : Rope.LineStart (p ++ l.text) := by
          rw [hbody, ← List.append_assoc]
          exact .append_feed _
        have hrest := ih hcut hnext (hls.tail hmore)
        rwa [Rope.lenBytes_append] at hrest

include h in
/-- The blocks that the line operations work on are the maximal runs of the
lines that the selections touch. -/
theorem lineBlocks_eq_blockRanges :
    rope.lineBlocks selections =
      blockRanges 0 (touchedRuns rope selections).runs
        (touchedRuns rope selections).rest := by
  have hrope : rope = [] ++ joinLines rope.lines := (joinLines_lines rope).symm
  have hmarks := markLines_eq_markBlocks h hrope (.inl rfl)
    (lines_formed rope)
  have hranges := blockRanges_runsOf hrope (lines_formed rope)
    (lineBlocks_spec h).1 fun b _ => Nat.zero_le _
  rw [← hmarks] at hranges
  exact hranges.symm

theorem touchedRuns_toList (rope : Rope) (selections : List Selection) :
    runsToList (touchedRuns rope selections).runs ++
      (touchedRuns rope selections).rest = rope.lines := by
  rw [touchedRuns, runsOf_toList, touchedLines, map_fst_markLines]

end Selections

theorem touchedRuns_separated (rope : Rope) (selections : List Selection) :
    (touchedRuns rope selections).Separated :=
  runsOf_separated _

theorem touchedRuns_block_ne (rope : Rope) (selections : List Selection) :
    ∀ r ∈ (touchedRuns rope selections).runs, r.block ≠ [] :=
  (touchedRuns_separated rope selections).block_ne

theorem touchedRuns_formed (rope : Rope) (selections : List Selection) :
    FormedLines (runsToList (touchedRuns rope selections).runs ++
      (touchedRuns rope selections).rest) := by
  rw [touchedRuns_toList]
  exact lines_formed rope

theorem joinLines_touchedRuns (rope : Rope) (selections : List Selection) :
    rope = joinLines (runsToList (touchedRuns rope selections).runs ++
      (touchedRuns rope selections).rest) := by
  rw [touchedRuns_toList, joinLines_lines]

end Tempr.Editor
