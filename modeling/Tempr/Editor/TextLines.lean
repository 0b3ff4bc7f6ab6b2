import Tempr.Editor.MoveLines

/-!
# A text as a list of lines

A text falls into lines, each a content and a terminator; only the last line
has none.  A text has one such list of lines, and a cut in front of a line cuts
the list.
-/

namespace Tempr.Editor

open Tempr.Support

/-! ## Lines -/

structure Line where
  content : List Char
  terminator : List Char
  deriving DecidableEq, Repr

namespace Line

def text (l : Line) : List Char := l.content ++ l.terminator

/-- The terminator is all of the line break, and there is no other. -/
structure Formed (l : Line) : Prop where
  content : '\n' ∉ l.content
  terminator : l.terminator = [] ∨ IsBreak l.terminator
  feed : l.terminator = ['\n'] → l.content.getLast? ≠ some '\r'

/-- A terminated line ends in its only line feed. -/
theorem Formed.exists_body {l : Line} (h : l.Formed)
    (hne : l.terminator ≠ []) :
    ∃ body, l.text = body ++ ['\n'] ∧ '\n' ∉ body := by
  rcases h.terminator with hnil | hfeed | hcrlf
  · exact absurd hnil hne
  · exact ⟨l.content, by rw [text, hfeed], h.content⟩
  · refine ⟨l.content ++ ['\r'], by rw [text, hcrlf]; simp, ?_⟩
    simp only [List.mem_append, not_or]
    exact ⟨h.content, by decide⟩

end Line

/-- The text of a list of lines. -/
def joinLines (ls : List Line) : Rope := ls.flatMap Line.text

@[simp] theorem joinLines_nil : joinLines [] = [] := rfl

@[simp] theorem joinLines_cons (l : Line) (ls : List Line) :
    joinLines (l :: ls) = l.text ++ joinLines ls :=
  rfl

@[simp] theorem joinLines_append (ls ms : List Line) :
    joinLines (ls ++ ms) = joinLines ls ++ joinLines ms :=
  List.flatMap_append

/-- Put a character in front of a text that is cut into lines. -/
def pushChar (c : Char) : List Line → List Line
  | [] => [⟨[c], []⟩]
  | l :: ls =>
      if c = '\n' then ⟨[], ['\n']⟩ :: l :: ls
      else if c = '\r' ∧ l = ⟨[], ['\n']⟩ then ⟨[], ['\r', '\n']⟩ :: ls
      else ⟨c :: l.content, l.terminator⟩ :: ls

/-- The lines of a text. -/
def Rope.lines (rope : Rope) : List Line := rope.foldr pushChar [⟨[], []⟩]

/-- Lines that a text can be cut into: all but the last have a terminator. -/
def FormedLines : List Line → Prop
  | [] => False
  | [l] => l.Formed ∧ l.terminator = []
  | l :: m :: ls => l.Formed ∧ l.terminator ≠ [] ∧ FormedLines (m :: ls)

theorem FormedLines.ne_nil {ls : List Line} (h : FormedLines ls) :
    ls ≠ [] := by
  rintro rfl
  exact h

theorem FormedLines.head {l : Line} {ls : List Line}
    (h : FormedLines (l :: ls)) : l.Formed := by
  cases ls with
  | nil => exact h.1
  | cons m ls => exact h.1

theorem FormedLines.terminator_iff {l : Line} {ls : List Line}
    (h : FormedLines (l :: ls)) : l.terminator = [] ↔ ls = [] := by
  cases ls with
  | nil => exact iff_of_true h.2 rfl
  | cons m ls => exact iff_of_false h.2.1 (by simp)

theorem FormedLines.cons {l : Line} {ls : List Line} (h : FormedLines ls)
    (hl : l.Formed) (hne : l.terminator ≠ []) : FormedLines (l :: ls) := by
  cases ls with
  | nil => exact absurd rfl h.ne_nil
  | cons m ls => exact ⟨hl, hne, h⟩

theorem FormedLines.tail {l : Line} {ls : List Line}
    (h : FormedLines (l :: ls)) (hne : ls ≠ []) : FormedLines ls := by
  cases ls with
  | nil => exact absurd rfl hne
  | cons m ls => exact h.2.2

/-- The lines behind the first lines of a text. -/
theorem FormedLines.of_append {us vs : List Line} (h : FormedLines (us ++ vs))
    (hne : vs ≠ []) : FormedLines vs := by
  induction us with
  | nil => exact h
  | cons l us ih => exact ih (h.tail (by simp [hne]))

theorem pushChar_formed (c : Char) {ls : List Line} (h : FormedLines ls) :
    FormedLines (pushChar c ls) := by
  cases ls with
  | nil => exact absurd rfl h.ne_nil
  | cons l ls =>
      have hl := h.head
      have hiff := h.terminator_iff
      have hreplace : ∀ l' : Line, l'.Formed →
          (l'.terminator = [] ↔ l.terminator = []) →
          FormedLines (l' :: ls) := by
        intro l' hl' hterm
        cases ls with
        | nil => exact ⟨hl', hterm.mpr h.2⟩
        | cons m ls => exact ⟨hl', fun hnil => h.2.1 (hterm.mp hnil), h.2.2⟩
      rw [pushChar]
      split_ifs with hfeed hcr
      · exact h.cons ⟨by simp, .inr (.inl rfl), by simp⟩ (by simp)
      · obtain ⟨-, rfl⟩ := hcr
        exact hreplace _ ⟨by simp, .inr (.inr rfl), by simp⟩ (by simp)
      · refine hreplace _ ⟨?_, hl.terminator, fun hterm => ?_⟩ Iff.rfl
        · simp only [List.mem_cons, not_or]
          exact ⟨fun h => hfeed h.symm, hl.content⟩
        · -- A carriage return joins the terminator of an empty line.
          have hlast := hl.feed hterm
          obtain ⟨content, terminator⟩ := l
          cases content with
          | nil =>
              obtain rfl : terminator = ['\n'] := hterm
              simpa using fun hc : c = '\r' => hcr ⟨hc, rfl⟩
          | cons d content => simpa using hlast

theorem lines_formed (rope : Rope) : FormedLines rope.lines := by
  induction rope with
  | nil => exact ⟨⟨by simp, .inl rfl, by simp⟩, rfl⟩
  | cons c rope ih => exact pushChar_formed c ih

/-- The lines of a text make it up. -/
theorem joinLines_lines (rope : Rope) : joinLines rope.lines = rope := by
  have hpush : ∀ c ls, joinLines (pushChar c ls) = c :: joinLines ls := by
    intro c ls
    cases ls with
    | nil => rfl
    | cons l ls =>
        rw [pushChar]
        split_ifs with hfeed hcr
        · subst hfeed
          rfl
        · obtain ⟨rfl, rfl⟩ := hcr
          rfl
        · rfl
  induction rope with
  | nil => rfl
  | cons c rope ih =>
      change joinLines (pushChar c (Rope.lines rope)) = _
      rw [hpush, ih]

theorem lines_break {k : Rope} (hk : IsBreak k) (rest : Rope) :
    Rope.lines (k ++ rest) = ⟨[], k⟩ :: rest.lines := by
  have hne := (lines_formed rest).ne_nil
  have hfeed : Rope.lines ('\n' :: rest) = ⟨[], ['\n']⟩ :: rest.lines := by
    change pushChar '\n' rest.lines = _
    obtain ⟨l, ls, hls⟩ := List.exists_cons_of_ne_nil hne
    rw [hls]
    rfl
  rcases hk with rfl | rfl
  · exact hfeed
  · change pushChar '\r' (Rope.lines ('\n' :: rest)) = _
    rw [hfeed]
    rfl

/-- A content goes in front of a line that has none. -/
theorem lines_content {content : Rope} (hcontent : '\n' ∉ content)
    {rest : Rope} {k : List Char} {ls : List Line}
    (hrest : rest.lines = ⟨[], k⟩ :: ls)
    (hk : k = ['\n'] → content.getLast? ≠ some '\r') :
    Rope.lines (content ++ rest) = ⟨content, k⟩ :: ls := by
  induction content with
  | nil => exact hrest
  | cons c content ih =>
      simp only [List.mem_cons, not_or] at hcontent
      have htail := ih hcontent.2 (by
        cases content with
        | nil => simp
        | cons d content => simpa using hk)
      change pushChar c (Rope.lines (content ++ rest)) = _
      rw [htail, pushChar, if_neg (fun h => hcontent.1 h.symm), if_neg]
      rintro ⟨rfl, hline⟩
      obtain ⟨rfl, rfl⟩ := Line.mk.inj hline
      exact hk rfl rfl

/-- A text has only one list of lines. -/
theorem lines_joinLines {ls : List Line} (h : FormedLines ls) :
    (joinLines ls).lines = ls := by
  induction ls with
  | nil => exact absurd rfl h.ne_nil
  | cons l ls ih =>
      have hl := h.head
      rw [joinLines_cons, Line.text, List.append_assoc]
      by_cases hlast : ls = []
      · subst hlast
        have hterm := h.terminator_iff.mpr rfl
        rw [hterm]
        have hnil : Rope.lines [] = [⟨[], []⟩] := rfl
        rw [joinLines_nil, List.append_nil,
          lines_content hl.content hnil (by simp), ← hterm]
      · have hbreak : IsBreak l.terminator :=
          hl.terminator.resolve_left (mt h.terminator_iff.mp hlast)
        have hrest := lines_break hbreak (joinLines ls)
        rw [ih (h.tail hlast)] at hrest
        exact lines_content hl.content hrest hl.feed

/-! ## Cutting between lines -/

/-- A cut of a text in front of one of its lines cuts its list of lines. -/
theorem exists_lines_cut {ls : List Line} (h : FormedLines ls) {m s : Rope}
    (hcut : joinLines ls = m ++ s)
    (hm : m = [] ∨ ∃ body, m = body ++ ['\n']) :
    ∃ us vs, ls = us ++ vs ∧ m = joinLines us ∧ s = joinLines vs ∧
      FormedLines vs ∧ ∀ l ∈ us, l.terminator ≠ [] := by
  induction ls generalizing m with
  | nil => exact absurd rfl h.ne_nil
  | cons l ls ih =>
      rcases hm with rfl | ⟨q, rfl⟩
      · exact ⟨[], l :: ls, rfl, rfl, hcut.symm, h, by simp⟩
      · by_cases hlast : ls = []
        · subst hlast
          exfalso
          rw [joinLines_cons, Line.text, h.terminator_iff.mpr rfl] at hcut
          simp only [joinLines_nil, List.append_nil] at hcut
          have hcontent := h.head.content
          rw [hcut] at hcontent
          simp at hcontent
        · have hne := mt h.terminator_iff.mp hlast
          obtain ⟨body, hbody, hfeed⟩ := h.head.exists_body hne
          rw [joinLines_cons] at hcut
          rcases List.append_eq_append_iff.mp hcut with
            ⟨m', hm', hs⟩ | ⟨x, hx, hs⟩
          · -- The cut lies behind the first line.
            have hstart : m' = [] ∨ ∃ body, m' = body ++ ['\n'] := by
              apply Rope.LineStart.suffix (p := l.text)
              rw [← hm']
              exact .append_feed q
            obtain ⟨us, vs, rfl, hus, hvs, hformed, hterm⟩ :=
              ih (h.tail hlast) hs hstart
            refine ⟨l :: us, vs, rfl, ?_, hvs, hformed, ?_⟩
            · rw [joinLines_cons, hm', hus]
            · rw [List.forall_mem_cons]
              exact ⟨hne, hterm⟩
          · -- The cut lies behind the line feed that ends the first line.
            rcases List.eq_nil_or_concat' x with rfl | ⟨x, c, rfl⟩
            · refine ⟨[l], ls, rfl, ?_, hs, h.tail hlast, by simpa using hne⟩
              rw [joinLines_cons, joinLines_nil, hx]
              simp
            · exfalso
              rw [hbody, ← List.append_assoc] at hx
              rw [(List.append_inj' hx rfl).1] at hfeed
              simp at hfeed

/-- Lines in front of another line take up room. -/
theorem Line.lenBytes_text_pos {l : Line} (h : l.terminator ≠ []) :
    0 < Rope.lenBytes l.text :=
  Rope.lenBytes_pos (List.append_ne_nil_of_right_ne_nil _ h)

end Tempr.Editor
