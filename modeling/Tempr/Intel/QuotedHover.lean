import Tempr.Intel.Hover
import Tempr.Intel.QuotedNames

/-!
# Hover on a quoted name

A quoted name is found from its opening quote, and from behind its closing quote
unless a word goes on there. From inside of the quotes it is not: what is found
there starts behind the opening quote.
-/

namespace Tempr.Intel

open Tempr.Editor (ByteRange Rope)
open Tempr.Editor.Rope (lenBytes)
open Tempr.Support

/-- A name written in quotes. -/
def inQuotes (name : Text) : Text := '"' :: escapeQuotes name ++ ['"']

/-! ## Parts of a quoted name -/

/-- Up to a character that is no quote, the quotes of a written name are
doubled. -/
theorem eq_escapeQuotes_of_stop {c : Char} (hc : c ≠ '"') {init tail : Text}
    (name : Text) (h : init ++ c :: tail = escapeQuotes name ++ ['"']) :
    ∃ part, init = escapeQuotes part := by
  induction name generalizing init with
  | nil =>
    cases init with
    | nil => exact ⟨[], rfl⟩
    | cons d init => simp [escapeQuotes] at h
  | cons d name ih =>
    by_cases hd : d = '"'
    · subst hd
      rw [escapeQuotes, if_pos rfl, List.cons_append, List.cons_append] at h
      rcases init with _ | ⟨e, _ | ⟨f, init⟩⟩
      · exact absurd (List.cons.inj h).1 hc
      · exact absurd (List.cons.inj (List.cons.inj h).2).1 hc
      · simp only [List.cons_append, List.cons.injEq] at h
        obtain ⟨rfl, rfl, h⟩ := h
        obtain ⟨part, rfl⟩ := ih h
        exact ⟨'"' :: part, by rw [escapeQuotes, if_pos rfl]⟩
    · rw [escapeQuotes, if_neg hd, List.cons_append] at h
      rcases init with _ | ⟨e, init⟩
      · exact ⟨[], rfl⟩
      · rw [List.cons_append, List.cons.injEq] at h
        obtain ⟨rfl, h⟩ := h
        obtain ⟨part, rfl⟩ := ih h
        exact ⟨e :: part, by rw [escapeQuotes, if_neg hd]⟩

/-- The last quote of a name is a doubled one. -/
theorem exists_part_of_quote {init name : Text}
    (h : init ++ ['"'] = escapeQuotes name) :
    ∃ part, init = escapeQuotes part ++ ['"'] := by
  rcases List.eq_nil_or_concat' name with rfl | ⟨part, c, rfl⟩
  · simp [escapeQuotes] at h
  · by_cases hc : c = '"'
    · subst hc
      have hpair : ['"', '"'] = ['"'] ++ ['"'] := rfl
      rw [escapeQuotes_concat_quote, hpair, ← List.append_assoc] at h
      exact ⟨part, List.append_cancel_right h⟩
    · rw [escapeQuotes_concat_of_ne hc] at h
      have hlast := congrArg List.getLast? h
      rw [List.getLast?_concat, List.getLast?_concat, Option.some.injEq]
        at hlast
      exact absurd hlast.symm hc

theorem quotedOf_eq_none {chars : List Char} (h : '"' ∉ chars) (body : Text) :
    quotedOf body chars = none := by
  induction chars generalizing body with
  | nil => rfl
  | cons c chars ih =>
    have hc : c ≠ '"' := fun hc => h (hc ▸ List.mem_cons_self)
    rw [quotedOf.eq_3 _ _ _ (fun _ h' => absurd h' hc) hc]
    exact ih (fun hmem => h (List.mem_cons_of_mem c hmem)) (c :: body)

/-- Read back from a doubled quote inside of a name, the opening quote of the
name opens nothing. -/
theorem quotedOf_inside {before : Text} (hbefore : '"' ∉ before) (name : Text) :
    ∀ (body : Text) {part front : Text},
      quotedOf body ('"' :: (escapeQuotes name).reverse ++
        '"' :: before.reverse) = some (part, front) →
      ∃ inner, inner <+: escapeQuotes name ∧
        front = before ++ '"' :: inner := by
  have hback : '"' ∉ before.reverse := by rwa [List.mem_reverse]
  induction name using List.reverseRecOn with
  | nil =>
    intro body part front h
    have hnone := quotedOf_eq_none hback ('"' :: '"' :: body)
    rw [← quotedOf.eq_1 body before.reverse] at hnone
    exact absurd (h.symm.trans hnone) (Option.some_ne_none _)
  | append_singleton name c ih =>
    intro body part front h
    by_cases hc : c = '"'
    · subst hc
      rw [escapeQuotes_concat_quote, List.reverse_append] at h
      obtain ⟨inner, hinner, hfront⟩ := ih _ h
      rw [escapeQuotes_concat_quote]
      exact ⟨inner, hinner.trans (List.prefix_append _ _), hfront⟩
    · rw [escapeQuotes_concat_of_ne hc, List.reverse_append,
        List.reverse_singleton] at h
      rw [escapeQuotes_concat_of_ne hc]
      have hopening : ((c :: (escapeQuotes name).reverse) ++
          '"' :: before.reverse).head? ≠ some '"' := by
        rw [List.cons_append, List.head?_cons, ne_eq, Option.some.injEq]
        exact hc
      have hfront := (quotedOf_opening hopening body).symm.trans h
      rw [Option.some.injEq, Prod.mk.injEq] at hfront
      refine ⟨escapeQuotes name ++ [c], List.prefix_rfl, ?_⟩
      rw [← hfront.2]
      simp

/-- A name that is read back from a doubled quote starts behind the opening
quote. -/
theorem quotedOf_before_quote {before : Text} (hbefore : '"' ∉ before)
    {init name part front : Text} (hinit : init ++ ['"'] = escapeQuotes name)
    (h : quotedOf [] (before ++ '"' :: init).reverse = some (part, front)) :
    ∃ inner, inner <+: init ∧ front = before ++ '"' :: inner := by
  obtain ⟨shorter, rfl⟩ := exists_part_of_quote hinit
  have hchars : (before ++ '"' :: (escapeQuotes shorter ++ ['"'])).reverse =
      '"' :: (escapeQuotes shorter).reverse ++ '"' :: before.reverse := by simp
  rw [hchars] at h
  obtain ⟨inner, hinner, hfront⟩ := quotedOf_inside hbefore shorter [] h
  exact ⟨inner, hinner.trans (List.prefix_append _ _), hfront⟩

section Cursor

variable [CharTables]

/-! ## The qualifier -/

theorem qualifierOf_isPrefix (n : ℕ) (text : Text) :
    (qualifierOf n text).2 <+: text := by
  induction n generalizing text with
  | zero => exact List.prefix_rfl
  | succ n ih =>
    by_cases hdot : (trimEnd text).getLast? = some '.'
    swap
    · simp only [qualifierOf_of_not_dot n hdot, List.prefix_rfl]
    cases hident : identifierOf (trimEnd text).dropLast with
    | none => simp only [qualifierOf_of_none n hident, List.prefix_rfl]
    | some found =>
      obtain ⟨part, front⟩ := found
      rw [qualifierOf_of_some n hdot hident]
      have hfront : front <+: text :=
        ((identifierOf_isPrefix hident).trans (List.dropLast_prefix _)).trans
          (trimEnd_isPrefix text)
      exact (ih front).trans hfront

/-- Without parts there is nothing before the word that belongs to it. -/
theorem qualifierOf_of_nil {n : ℕ} {text : Text}
    (h : (qualifierOf n text).1 = []) :
    (qualifierOf n text).2 = text := by
  cases n with
  | zero => rfl
  | succ n =>
    by_cases hdot : (trimEnd text).getLast? = some '.'
    swap
    · rw [qualifierOf_of_not_dot n hdot]
    cases hident : identifierOf (trimEnd text).dropLast with
    | none => rw [qualifierOf_of_none n hident]
    | some found =>
      obtain ⟨part, front⟩ := found
      rw [qualifierOf_of_some n hdot hident] at h
      exact absurd h
        (List.append_ne_nil_of_right_ne_nil _ (List.cons_ne_nil _ _))

/-- Spaces are trimmed up to the opening quote. -/
theorem trimEnd_append_quote (before inner : Text) :
    trimEnd (before ++ '"' :: inner) = before ++ '"' :: trimEnd inner :=
  rdropWhile_append_stop not_isWhitespace_quote before inner

section Inside

variable {before : Text} (hbefore : '"' ∉ before)
include hbefore

/-- An identifier that is read back inside of a quoted name starts behind the
opening quote. -/
theorem identifierOf_inside {init tail name part front : Text} {c : Char}
    (hc : c ≠ '"') (hsplit : init ++ c :: tail = escapeQuotes name ++ ['"'])
    (h : identifierOf (before ++ '"' :: init) = some (part, front)) :
    ∃ inner, inner <+: init ∧ front = before ++ '"' :: inner := by
  have htrimmed : trimEnd init <+: init := trimEnd_isPrefix init
  -- what stands behind the trimmed text is no quote either
  have hstop : ∃ stop rest, stop ≠ '"' ∧
      trimEnd init ++ stop :: rest = escapeQuotes name ++ ['"'] := by
    obtain ⟨spaces, hspaces⟩ := htrimmed
    cases spaces with
    | nil =>
      rw [List.append_nil] at hspaces
      exact ⟨c, tail, hc, hspaces.symm ▸ hsplit⟩
    | cons space spaces =>
      refine ⟨space, spaces ++ c :: tail, ?_, ?_⟩
      · rintro rfl
        have hkept := trimEnd_append_quote (trimEnd init) spaces
        rw [hspaces, List.self_eq_append_right] at hkept
        cases hkept
      · rw [← hsplit, ← List.cons_append, ← List.append_assoc, hspaces]
  obtain ⟨stop, rest, hne, hrest⟩ := hstop
  simp only [identifierOf, trimEnd_append_quote] at h
  generalize trimEnd init = trimmed at htrimmed hrest h
  split at h
  · rename_i hlast
    rcases List.eq_nil_or_concat' trimmed with rfl | ⟨shorter, last, rfl⟩
    · rw [List.dropLast_concat, quotedOf_eq_none (by rwa [List.mem_reverse])]
        at h
      cases h
    · rw [← List.cons_append, ← List.append_assoc] at h hlast
      rw [List.getLast?_concat, Option.some.injEq] at hlast
      subst hlast
      rw [List.dropLast_concat] at h
      obtain ⟨shown, hshown⟩ := eq_escapeQuotes_of_stop hne name hrest
      obtain ⟨inner, hinner, hfront⟩ := quotedOf_before_quote hbefore hshown h
      exact ⟨inner, (hinner.trans (List.prefix_append _ _)).trans htrimmed,
        hfront⟩
  · split at h
    · cases h
      refine ⟨trimmed.rdropWhile isIdentChar,
        (List.rdropWhile_prefix _ _).trans htrimmed, ?_⟩
      exact rdropWhile_append_stop not_isIdentChar_quote before trimmed
    · cases h

/-- A qualifier that is read back inside of a quoted name does not come to its
opening quote. -/
theorem qualifierOf_inside (name : Text) (n : ℕ) {inner : Text}
    (hinner : inner <+: escapeQuotes name ++ ['"']) :
    ∃ shorter, (qualifierOf n (before ++ '"' :: inner)).2 =
      before ++ '"' :: shorter := by
  induction n generalizing inner with
  | zero => exact ⟨inner, rfl⟩
  | succ n ih =>
    by_cases hdot : (trimEnd (before ++ '"' :: inner)).getLast? = some '.'
    swap
    · exact ⟨inner, by rw [qualifierOf_of_not_dot n hdot]⟩
    cases hident : identifierOf (trimEnd (before ++ '"' :: inner)).dropLast with
    | none => exact ⟨inner, by rw [qualifierOf_of_none n hident]⟩
    | some found =>
      obtain ⟨part, front⟩ := found
      rw [qualifierOf_of_some n hdot hident]
      have htrimmed := (trimEnd_isPrefix inner).trans hinner
      rw [trimEnd_append_quote] at hdot hident
      generalize trimEnd inner = trimmed at hdot hident htrimmed
      rcases List.eq_nil_or_concat' trimmed with rfl | ⟨init, last, rfl⟩
      · rw [List.getLast?_concat] at hdot
        exact absurd hdot (by decide)
      · rw [← List.cons_append, ← List.append_assoc] at hdot hident
        rw [List.getLast?_concat, Option.some.injEq] at hdot
        subst hdot
        rw [List.dropLast_concat] at hident
        obtain ⟨tail, htail⟩ := htrimmed
        rw [List.append_assoc, List.singleton_append] at htail
        obtain ⟨shorter, hshorter, rfl⟩ :=
          identifierOf_inside hbefore (by decide) htail hident
        exact ih (hshorter.trans ⟨'.' :: tail, htail⟩)

end Inside

/-! ## The word -/

omit [CharTables] in
theorem closingQuoteFrom_escapeQuotes {after : Text}
    (hafter : after.head? ≠ some '"') (name : Text) (idx : ℕ) :
    closingQuoteFrom idx (escapeQuotes name ++ '"' :: after) =
      some (idx + lenBytes (escapeQuotes name)) := by
  have hsize : ('"' : Char).utf8Size = 1 := by decide
  induction name generalizing idx with
  | nil =>
    rw [escapeQuotes, List.nil_append, closingQuoteFrom.eq_2]
    · rfl
    · rintro rest rfl
      exact hafter rfl
  | cons c name ih =>
    by_cases hc : c = '"'
    · subst hc
      rw [escapeQuotes, if_pos rfl, List.cons_append, List.cons_append,
        closingQuoteFrom, ih]
      simp only [Rope.lenBytes_cons, hsize]
      congr 1
      omega
    · rw [escapeQuotes, if_neg hc, List.cons_append, closingQuoteFrom.eq_3, ih]
      · rw [Rope.lenBytes_cons, Nat.add_assoc]
      · exact fun rest h => absurd h hc
      · exact hc

/-- Once the opening quote is found the word is the name, up to behind its
closing quote. -/
theorem wordAt_of_opening {before name after : Text} (hname : name ≠ [])
    (hafter : after.head? ≠ some '"') {offset : ℕ} {front rest : Text}
    (hto : sliceTo (before ++ inQuotes name ++ after) offset = some front)
    (hfrom : sliceFrom (before ++ inQuotes name ++ after) offset = some rest)
    (hseed : wordSeed front rest = some (lenBytes before, true)) :
    wordAt (before ++ inQuotes name ++ after) offset =
      some (some
        (⟨lenBytes before, lenBytes (before ++ inQuotes name)⟩, name)) := by
  have hsize : ('"' : Char).utf8Size = 1 := by decide
  have hopening : before ++ inQuotes name ++ after =
      (before ++ ['"']) ++ (escapeQuotes name ++ '"' :: after) := by
    simp [inQuotes]
  have hbody : before ++ inQuotes name ++ after =
      (before ++ '"' :: escapeQuotes name) ++ '"' :: after := by
    simp [inQuotes]
  have hstart : lenBytes before + 1 = lenBytes (before ++ ['"']) := by
    simp [hsize]
  have hstop : lenBytes (before ++ ['"']) + lenBytes (escapeQuotes name) =
      lenBytes (before ++ '"' :: escapeQuotes name) := by
    simp [hsize]
    omega
  have hrest : sliceFrom (before ++ inQuotes name ++ after)
      (lenBytes (before ++ ['"'])) =
        some (escapeQuotes name ++ '"' :: after) := by
    rw [hopening]
    exact sliceFrom_append _ _
  have hinner : sliceRange (before ++ inQuotes name ++ after)
      (lenBytes (before ++ ['"']))
      (lenBytes (before ++ '"' :: escapeQuotes name)) =
      some (escapeQuotes name) := by
    have hparts : before ++ '"' :: escapeQuotes name =
        (before ++ ['"']) ++ escapeQuotes name := by simp
    rw [sliceRange, hbody, sliceTo_append, Option.bind_eq_bind,
      Option.bind_some]
    conv_lhs => rw [hparts]
    exact sliceFrom_append _ _
  have hnonempty : (before ++ inQuotes name ++ after).isEmpty = false := by
    simp [inQuotes]
  have hend : lenBytes (before ++ '"' :: escapeQuotes name) + 1 =
      lenBytes (before ++ inQuotes name) := by
    simp [inQuotes, hsize]
    omega
  simp only [wordAt, hnonempty, hto, hfrom, hseed, hstart, hrest,
    closingQuoteFrom_escapeQuotes hafter, hstop, hinner, hend,
    unescapeQuotes_escapeQuotes, Option.bind_eq_bind, Option.bind_some]
  have hfull : name.isEmpty = false := by
    rwa [List.isEmpty_eq_false_iff]
  simp [hfull]

theorem wordSeed_opening (before name after : Text) :
    wordSeed before (inQuotes name ++ after) = some (lenBytes before, true) :=
      rfl

/-- Behind the closing quote the name is read back, unless a word begins
there. -/
theorem wordSeed_closing {before after : Text}
    (hbefore : before.getLast? ≠ some '"')
    (hafter : after.head? ≠ some '"') (hword : ¬ after.head?.any isIdentChar)
    (name : Text) :
    wordSeed (before ++ inQuotes name) after =
      some (lenBytes before, true) := by
  have hhead : before.reverse.head? ≠ some '"' := by
    rwa [List.head?_reverse]
  have hlast : before ++ inQuotes name =
      (before ++ '"' :: escapeQuotes name) ++ ['"'] := by
    rw [inQuotes, List.append_assoc]
  have hchars : (before ++ '"' :: escapeQuotes name).reverse =
      (escapeQuotes name).reverse ++ '"' :: before.reverse := by simp
  have hopening : openingQuote (before ++ '"' :: escapeQuotes name) =
      some (lenBytes before) := by
    rw [openingQuote, quotedBack_eq, hchars, quotedOf_escapeQuotes hhead,
      Option.map_some, Option.map_some, List.reverse_reverse]
  rw [wordSeed]
  split
  · rename_i hquote
    exact absurd hquote hafter
  · rw [if_neg hword, hlast, List.getLast?_concat, List.dropLast_concat,
      hopening]
    rfl

omit [CharTables] in
/-- The text before the rest of a quoted name is a part of the whole text. -/
theorem append_quote_isPrefix (before : Text) {inner a : Text}
    (hinner : inner <+: a) (more : Text) :
    before ++ '"' :: inner <+: before ++ '"' :: a ++ more := by
  apply List.IsPrefix.trans _ (List.prefix_append _ _)
  exact (List.prefix_append_right_inj before).mpr
    (List.cons_prefix_cons.mpr ⟨rfl, hinner⟩)

/-- A word starts where it begins to be read, if it is quoted, and else where
the identifier does that ends there. -/
theorem wordAt_start {front rest word : Text} {range : ByteRange}
    (h : wordAt (front ++ rest) (lenBytes front) = some (some (range, word))) :
    wordSeed front rest = some (range.start, true) ∨
      ∃ start part, wordSeed front rest = some (start, false) ∧
        sliceTo (front ++ rest) start = some part ∧
        range.start = wordStart part := by
  cases hempty : (front ++ rest).isEmpty with
  | true =>
    simp only [wordAt, hempty] at h
    cases h
  | false =>
    simp only [wordAt, hempty, sliceTo_append, sliceFrom_append,
      Option.bind_eq_bind, Option.bind_some] at h
    rcases hseed : wordSeed front rest with _ | ⟨start, _ | _⟩
    · rw [hseed] at h
      cases h
    · rw [hseed] at h
      obtain ⟨part, hpart, h⟩ := Option.bind_eq_some_iff.mp h
      obtain ⟨tail, -, h⟩ := Option.bind_eq_some_iff.mp h
      split at h
      · cases h
      obtain ⟨shown, -, h⟩ := Option.bind_eq_some_iff.mp h
      cases h
      exact Or.inr ⟨start, part, rfl, hpart, rfl⟩
    · rw [hseed] at h
      obtain ⟨tail, -, h⟩ := Option.bind_eq_some_iff.mp h
      split at h
      · cases h
      obtain ⟨inner, -, h⟩ := Option.bind_eq_some_iff.mp h
      split at h
      · cases h
      · cases h
        exact Or.inl rfl

section Inside

variable {before : Text} (hbefore : '"' ∉ before)
include hbefore

/-- Inside of a quoted name, and behind it where a word goes on, what is read
starts behind the opening quote. -/
theorem wordSeed_inside {a b name after : Text}
    (hsplit : a ++ b = escapeQuotes name ++ ['"'])
    (hend : b = [] → after.head?.any isIdentChar) {start : ℕ} {quoted : Bool}
    (h : wordSeed (before ++ '"' :: a) (b ++ after) = some (start, quoted)) :
    ∃ inner, inner <+: a ∧ start = lenBytes (before ++ '"' :: inner) := by
  rw [wordSeed] at h
  split at h
  · cases h
    exact ⟨a, List.prefix_rfl, rfl⟩
  rename_i hquote
  by_cases hword : (b ++ after).head?.any isIdentChar
  · rw [if_pos hword] at h
    cases h
    exact ⟨a, List.prefix_rfl, rfl⟩
  rw [if_neg hword] at h
  -- the offset stands before a character that is neither a quote nor in a word
  cases b with
  | nil => exact absurd (hend rfl) hword
  | cons c b =>
    have hc : c ≠ '"' := by
      rintro rfl
      exact hquote rfl
    rcases List.eq_nil_or_concat' a with rfl | ⟨init, last, rfl⟩
    · have hnone : openingQuote before = none := by
        rw [openingQuote, quotedBack_eq,
          quotedOf_eq_none (by rwa [List.mem_reverse])]
        rfl
      rw [List.getLast?_concat] at h
      simp [hnone] at h
    · have hinit : before ++ '"' :: (init ++ [last]) =
          (before ++ '"' :: init) ++ [last] := by simp
      rw [hinit, List.getLast?_concat, List.dropLast_concat] at h
      by_cases hlast : last = '"'
      · subst hlast
        obtain ⟨shown, hshown⟩ := eq_escapeQuotes_of_stop hc name hsplit
        simp only [openingQuote, quotedBack_eq, Option.map_eq_some_iff] at h
        obtain ⟨-, ⟨-, ⟨⟨part, front⟩, hfound, rfl⟩, rfl⟩, hstart⟩ := h
        cases hstart
        obtain ⟨inner, hinner, rfl⟩ :=
          quotedOf_before_quote hbefore hshown hfound
        exact ⟨inner, hinner.trans (List.prefix_append _ _), rfl⟩
      · split at h
        · rename_i hsame
          exact absurd (Option.some.inj hsame) hlast
        · split at h
          · rw [Option.some.injEq, Prod.mk.injEq] at h
            exact ⟨init, List.prefix_append _ _, h.1.symm⟩
          · cases h
        · cases h

/-- The word that is read from inside of a quoted name starts behind the opening
quote. -/
theorem wordAt_inside {a b name after : Text}
    (hsplit : a ++ b = escapeQuotes name ++ ['"'])
    (hend : b = [] → after.head?.any isIdentChar) {range : ByteRange}
    {word : Text}
    (h : wordAt (before ++ '"' :: a ++ (b ++ after))
        (lenBytes (before ++ '"' :: a)) =
      some (some (range, word))) :
    ∃ inner, inner <+: a ∧ range.start = lenBytes (before ++ '"' :: inner) := by
  rcases wordAt_start h with hseed | ⟨start, part, hseed, hpart, hstart⟩
  · exact wordSeed_inside hbefore hsplit hend hseed
  · obtain ⟨inner, hinner, rfl⟩ := wordSeed_inside hbefore hsplit hend hseed
    have hslice := sliceTo_of_prefix
      (append_quote_isPrefix before hinner (b ++ after))
    rw [hslice, Option.some.injEq] at hpart
    subst hpart
    rw [wordStart, rdropWhile_append_stop not_isIdentChar_quote] at hstart
    exact ⟨_, (List.rdropWhile_prefix _ _).trans hinner, hstart⟩

end Inside

/-- The range of a reference starts where its qualifier does, before the word.
-/
theorem referenceAt_range {text front : Text} {offset : ℕ} {range : ByteRange}
    {word : Text} (hfront : front <+: text)
    (hstart : range.start = lenBytes front)
    (hoffset : Rope.IsCharBoundary text offset)
    (hword : wordAt text offset = some (some (range, word))) :
    referenceAt text offset =
      some (some ⟨⟨lenBytes (qualifierOf 3 front).2, range.stop⟩,
        (qualifierOf 3 front).1, word⟩) := by
  have hmin : min offset (lenBytes text) = offset :=
    Nat.min_eq_left hoffset.le_span
  simp only [referenceAt, hmin, hoffset, hword, hstart, qualifierBefore,
    qualifierParts_eq text 3 hfront, Option.bind_eq_bind, Option.bind_some]
  by_cases hparts : (qualifierOf 3 front).1 = []
  · obtain ⟨start, stop⟩ := range
    subst hstart
    simp [hparts, qualifierOf_of_nil hparts]
  · simp [hparts]

theorem exists_wordAt {text : Text} {offset : ℕ} {found : Reference}
    (hoffset : Rope.IsCharBoundary text offset)
    (h : referenceAt text offset = some (some found)) :
    ∃ range word, wordAt text offset = some (some (range, word)) := by
  have hmin : min offset (lenBytes text) = offset :=
    Nat.min_eq_left hoffset.le_span
  simp only [referenceAt, hmin, hoffset, not_true_eq_false, if_false] at h
  obtain ⟨word, hword, h⟩ := Option.bind_eq_some_iff.mp h
  rcases word with _ | ⟨range, word⟩
  · cases h
  · exact ⟨range, word, hword⟩

/-! ## The reference -/

/-- The reference whose last part is a quoted name: it has the quotes and the
qualifier before them. -/
def referenceInQuotes (before name : Text) : Reference :=
  ⟨⟨lenBytes (qualifierOf 3 before).2, lenBytes (before ++ inQuotes name)⟩,
    (qualifierOf 3 before).1, name⟩

theorem referenceAt_of_opening {before name after : Text} (hname : name ≠ [])
    (hafter : after.head? ≠ some '"') {front rest : Text}
    (hsplit : before ++ inQuotes name ++ after = front ++ rest)
    (hseed : wordSeed front rest = some (lenBytes before, true)) :
    referenceAt (before ++ inQuotes name ++ after) (lenBytes front) =
      some (some (referenceInQuotes before name)) := by
  have hbefore : before <+: before ++ inQuotes name ++ after := by
    rw [List.append_assoc]
    exact List.prefix_append _ _
  have hoffset : Rope.IsCharBoundary (before ++ inQuotes name ++ after)
      (lenBytes front) := hsplit ▸ isBoundary_append_left front rest
  have hto : sliceTo (before ++ inQuotes name ++ after) (lenBytes front) =
      some front := by rw [hsplit, sliceTo_append]
  have hfrom : sliceFrom (before ++ inQuotes name ++ after) (lenBytes front) =
      some rest := by rw [hsplit, sliceFrom_append]
  exact referenceAt_range hbefore rfl hoffset
    (wordAt_of_opening hname hafter hto hfrom hseed)

/-- From inside of the quotes the reference is another one, or there is none. -/
theorem referenceAt_inside {before a b name after : Text}
    (hbefore : '"' ∉ before)
    (hsplit : a ++ b = escapeQuotes name ++ ['"'])
    (hend : b = [] → after.head?.any isIdentChar) :
    referenceAt (before ++ '"' :: a ++ (b ++ after))
      (lenBytes (before ++ '"' :: a)) ≠
      some (some (referenceInQuotes before name)) := by
  intro h
  have hoffset : Rope.IsCharBoundary (before ++ '"' :: a ++ (b ++ after))
      (lenBytes (before ++ '"' :: a)) := isBoundary_append_left _ _
  obtain ⟨range, word, hword⟩ := exists_wordAt hoffset h
  obtain ⟨inner, hinner, hstart⟩ := wordAt_inside hbefore hsplit hend hword
  have hfront : before ++ '"' :: inner <+: before ++ '"' :: a ++ (b ++ after) :=
    append_quote_isPrefix before hinner _
  obtain ⟨shorter, hshorter⟩ :=
    qualifierOf_inside hbefore name 3 (hinner.trans ⟨b, hsplit⟩)
  rw [referenceAt_range hfront hstart hoffset hword, hshorter,
    Option.some.injEq, Option.some.injEq] at h
  -- it would start before the opening quote, and behind it
  have hsame : lenBytes (before ++ '"' :: shorter) =
      lenBytes (qualifierOf 3 before).2 :=
    congrArg (fun found : Reference => found.range.start) h
  obtain ⟨rest, hrest⟩ := qualifierOf_isPrefix 3 before
  have hle := congrArg lenBytes hrest
  have hquote := Rope.utf8Size_pos '"'
  rw [Rope.lenBytes_append] at hle
  rw [Rope.lenBytes_append, Rope.lenBytes_cons] at hsame
  omega

omit [CharTables] in
/-- An offset on a quoted name is at its opening quote or behind it. -/
theorem exists_read_of_boundary {before name after : Text} {offset : ℕ}
    (hoffset : Rope.IsCharBoundary (before ++ inQuotes name ++ after) offset)
    (hfrom : lenBytes before ≤ offset)
    (hto : offset ≤ lenBytes (before ++ inQuotes name)) :
    offset = lenBytes before ∨
      ∃ a b, a ++ b = escapeQuotes name ++ ['"'] ∧
        offset = lenBytes (before ++ '"' :: a) := by
  obtain ⟨front, rest, htext, hspan⟩ := hoffset
  subst hspan
  rw [List.append_assoc] at htext
  obtain ⟨read, rfl, hrest⟩ :=
    exists_append_of_span_le Rope.utf8Size_pos htext hfrom
  have hread : span Char.utf8Size read ≤
      span Char.utf8Size (inQuotes name) := by
    rw [Rope.lenBytes_append, span_append] at hto
    exact Nat.le_of_add_le_add_left hto
  obtain ⟨unread, hquoted, -⟩ :=
    exists_append_of_span_le Rope.utf8Size_pos hrest.symm hread
  cases read with
  | nil => exact Or.inl (by rw [List.append_nil]; rfl)
  | cons c read =>
    rw [inQuotes, List.cons_append, List.cons_append, List.cons.injEq]
      at hquoted
    obtain ⟨rfl, hquoted⟩ := hquoted
    exact Or.inr ⟨read, unread, hquoted.symm, rfl⟩

/-- Hover finds a quoted name just from its opening quote, and from behind its
closing quote where no word goes on. -/
theorem referenceAt_quoted_iff {before name after : Text}
    (hbefore : '"' ∉ before)
    (hname : name ≠ []) (hafter : after.head? ≠ some '"') {offset : ℕ}
    (hoffset : Rope.IsCharBoundary (before ++ inQuotes name ++ after) offset)
    (hfrom : lenBytes before ≤ offset)
    (hto : offset ≤ lenBytes (before ++ inQuotes name)) :
    referenceAt (before ++ inQuotes name ++ after) offset =
        some (some (referenceInQuotes before name)) ↔
      offset = lenBytes before ∨
        offset = lenBytes (before ++ inQuotes name) ∧
          ¬ after.head?.any isIdentChar := by
  have hlast : before.getLast? ≠ some '"' :=
    fun h => hbefore (List.mem_of_getLast? h)
  rcases exists_read_of_boundary hoffset hfrom hto with
    rfl | ⟨a, b, hsplit, rfl⟩
  · refine iff_of_true ?_ (Or.inl rfl)
    exact referenceAt_of_opening hname hafter (List.append_assoc _ _ _)
      (wordSeed_opening before name after)
  have hquoted : inQuotes name = '"' :: a ++ b := by
    rw [inQuotes, List.cons_append, List.cons_append, hsplit]
  by_cases hend : b = [] → after.head?.any isIdentChar
  · refine iff_of_false ?_ ?_
    · rw [hquoted, ← List.append_assoc, List.append_assoc _ b after]
      exact referenceAt_inside hbefore hsplit hend
    · have hquote := Rope.utf8Size_pos '"'
      rintro (heq | ⟨heq, hword⟩)
      · rw [Rope.lenBytes_append, Rope.lenBytes_cons] at heq
        omega
      · have hlen : lenBytes (before ++ inQuotes name) =
            lenBytes (before ++ '"' :: a) + lenBytes b := by
          rw [hquoted, ← List.append_assoc, Rope.lenBytes_append]
        have hb : lenBytes b = 0 := by omega
        exact hword (hend ((span_eq_zero_iff Rope.utf8Size_pos).mp hb))
  · obtain ⟨rfl, hword⟩ := Classical.not_imp.mp hend
    rw [List.append_nil] at hquoted
    rw [← hquoted]
    refine iff_of_true ?_ (Or.inr ⟨rfl, hword⟩)
    exact referenceAt_of_opening hname hafter rfl
      (wordSeed_closing hlast hafter hword name)

end Cursor

section Sample

local instance charsQuotedHover : CharTables := CharTables.ascii

/-- From the opening quote the name is found, and from its first letter not. -/
theorem referenceAt_quoted_iff_select :
    referenceAt "select \"name\" from users".toList 7 =
        some (some (referenceInQuotes "select ".toList "name".toList)) ∧
      referenceAt "select \"name\" from users".toList 8 ≠
        some (some (referenceInQuotes "select ".toList "name".toList)) := by
  have hname : "name".toList ≠ [] := by decide
  have hbefore : '"' ∉ "select ".toList := by decide
  have hafter : " from users".toList.head? ≠ some '"' := by decide
  constructor
  · exact (referenceAt_quoted_iff hbefore hname hafter (by decide +kernel)
      (by decide +kernel) (by decide +kernel)).mpr (Or.inl (by decide +kernel))
  · intro h
    have hfound := (referenceAt_quoted_iff hbefore hname hafter
      (by decide +kernel) (by decide +kernel) (by decide +kernel)).mp h
    exact absurd hfound (by decide +kernel)

/-- From inside of the quotes the word is found without them. -/
theorem referenceAt_without_quotes :
    referenceAt "select \"name\" from users".toList 10 =
        some (some ⟨⟨8, 12⟩, [], "name".toList⟩) ∧
      ¬ ∀ (before name after : Text) (offset : ℕ), '"' ∉ before → name ≠ [] →
          after.head? ≠ some '"' →
          Rope.IsCharBoundary (before ++ inQuotes name ++ after) offset →
          lenBytes before ≤ offset →
          offset ≤ lenBytes (before ++ inQuotes name) →
          referenceAt (before ++ inQuotes name ++ after) offset =
            some (some (referenceInQuotes before name)) := by
  refine ⟨by decide +kernel, fun hall => ?_⟩
  have hfound := hall "select ".toList "name".toList " from users".toList 10
    (by decide) (by decide) (by decide) (by decide +kernel) (by decide +kernel)
    (by decide +kernel)
  exact absurd hfound (by decide +kernel)

end Sample

end Tempr.Intel
